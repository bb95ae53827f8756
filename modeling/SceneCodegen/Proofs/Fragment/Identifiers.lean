import Mathlib.Data.List.Forall2
import SceneCodegen.Proofs.Fragment.TameNames

/-!
# Identifiers

Every name is made into an identifier. Names that are words keep apart, but a name that is no word
is blurred: each character that an identifier cannot hold becomes an underscore, and one more is put
before an empty name and before a digit. Two names have one identifier just if they look alike after
that.
-/
namespace SceneCodegen.Fragment

def reservedWords : List String :=
  -- types and values
  ["bool", "byte", "char", "decimal", "double", "float", "int", "long", "object", "sbyte", "short",
    "string", "uint", "ulong", "ushort", "void", "false", "null", "true", "base", "this"] ++
  -- declarations
  ["class", "delegate", "enum", "event", "interface", "namespace", "struct", "using",
    "explicit", "implicit", "operator", "params", "in", "out", "ref"] ++
  -- modifiers
  ["abstract", "const", "extern", "internal", "override", "private", "protected", "public",
    "readonly", "sealed", "static", "unsafe", "virtual", "volatile"] ++
  -- statements
  ["break", "case", "catch", "checked", "continue", "default", "do", "else", "finally", "fixed",
    "for", "foreach", "goto", "if", "lock", "return", "switch", "throw", "try", "unchecked",
    "while"] ++
  -- operators
  ["as", "is", "new", "sizeof", "stackalloc", "typeof"]

/-- A word of letters, digits and underscores that does not begin with a digit. -/
def isWord : List Char → Bool
  | [] => false
  | c :: rest => (c.isAlpha || c == '_') && rest.all fun c => c.isAlphanum || c == '_'

def IsIdentifier (s : String) : Prop :=
  (isWord s.toList = true ∧ s ∉ reservedWords) ∨ ∃ word ∈ reservedWords, s = "@" ++ word

instance (s : String) : Decidable (IsIdentifier s) :=
  inferInstanceAs (Decidable (_ ∨ ∃ word ∈ reservedWords, s = "@" ++ word))

theorem mem_keywords {word : String} : word ∈ keywords ↔ word ∈ reservedWords := by
  have hperm : keywords.Perm reservedWords := by decide +kernel
  exact hperm.mem_iff

/-- A character that can stand in an identifier, but not as a digit in front. -/
theorem isWordChar_eq (c : Char) : isWordChar c = (c.isAlpha || c == '_' || c.isDigit) := by
  rw [isWordChar, Char.isAlphanum, Bool.or_assoc, Bool.or_assoc, Bool.or_comm c.isDigit]

/-- A character as it stands in an identifier. -/
def blur (c : Char) : Char := if isWordChar c then c else '_'

/-- An underscore before nothing and before a digit. -/
def started : List Char → List Char
  | [] => ['_']
  | c :: rest => if c.isDigit then '_' :: c :: rest else c :: rest

theorem identifier_eq (name : String) : identifier name =
    if keywords.contains (String.ofList (started (name.toList.map blur))) then
      "@" ++ String.ofList (started (name.toList.map blur))
    else String.ofList (started (name.toList.map blur)) := rfl

theorem isWordChar_blur (c : Char) : isWordChar (blur c) = true := by
  rw [blur]
  split
  · assumption
  · decide

theorem isWord_started {cs : List Char} (h : ∀ c ∈ cs, isWordChar c = true) :
    isWord (started cs) = true := by
  cases cs with
  | nil => decide
  | cons c rest =>
    rw [List.forall_mem_cons] at h
    have hrest : (rest.all fun c => c.isAlphanum || c == '_') = true := List.all_eq_true.mpr h.2
    have hc := h.1
    rw [started]
    split
    · have hall : ((c :: rest).all fun c => c.isAlphanum || c == '_') = true := by
        rw [List.all_cons, hrest, Bool.and_true]
        exact hc
      rw [isWord, hall]
      decide
    · rename_i hdigit
      rw [isWordChar_eq, Bool.eq_false_iff.mpr hdigit, Bool.or_false] at hc
      rw [isWord, hc, hrest]
      decide

theorem isWord_blurred (name : String) : isWord (started (name.toList.map blur)) = true := by
  refine isWord_started fun c hc => ?_
  obtain ⟨c, -, rfl⟩ := List.mem_map.mp hc
  exact isWordChar_blur c

/-- Every name has an identifier. -/
theorem isIdentifier_identifier (name : String) : IsIdentifier (identifier name) := by
  rw [identifier_eq]
  split
  · rename_i hkeyword
    exact .inr ⟨_, mem_keywords.mp (List.contains_iff_mem.mp hkeyword), rfl⟩
  · rename_i hother
    rw [List.contains_iff_mem, mem_keywords] at hother
    exact .inl ⟨by rw [String.toList_ofList]; exact isWord_blurred name, hother⟩

/-- An identifier tells the word that it was made from, as no word begins with an `@`. -/
theorem identifier_eq_identifier {a b : String} : identifier a = identifier b ↔
    started (a.toList.map blur) = started (b.toList.map blur) := by
  constructor
  · have hne {cs ds : List Char} (hds : isWord ds = true) :
        "@" ++ String.ofList cs ≠ String.ofList ds := by
      intro h
      have hchars := congrArg String.toList h
      simp only [String.toList_append, String.toList_ofList] at hchars
      rw [← hchars] at hds
      cases hds
    rw [identifier_eq, identifier_eq]
    split <;> split
    · rw [String.append_right_inj, String.ofList_inj]
      exact id
    · exact fun h => absurd h (hne (isWord_blurred b))
    · exact fun h => absurd h.symm (hne (isWord_blurred a))
    · rw [String.ofList_inj]
      exact id
  · intro h
    rw [identifier_eq, identifier_eq, h]

/-- Characters that look alike in an identifier. -/
def LookAlike (c d : Char) : Prop := c = d ∨ c.isAlphanum = false ∧ d.isAlphanum = false

/-- A name that begins with nothing or with a digit. -/
def Unstarted (cs : List Char) : Prop := ∀ c, cs.head? = some c → c.isDigit = true

/-- A name gets an underscore in front, and another looks like it behind an underscore. -/
def Meets (a b : List Char) : Prop :=
  Unstarted a ∧ ∃ c b', b = c :: b' ∧ c.isAlphanum = false ∧ List.Forall₂ LookAlike a b'

/-- Names that an identifier does not tell apart. -/
def Clash (a b : List Char) : Prop := List.Forall₂ LookAlike a b ∨ Meets a b ∨ Meets b a

theorem blur_of_isAlphanum {c : Char} (h : c.isAlphanum = true) : blur c = c := by
  rw [blur, isWordChar, h]
  rfl

theorem blur_eq_underscore {c : Char} : blur c = '_' ↔ c.isAlphanum = false := by
  cases hc : c.isAlphanum with
  | true =>
    rw [blur_of_isAlphanum hc]
    refine iff_of_false ?_ (by decide)
    rintro rfl
    revert hc
    decide
  | false =>
    refine iff_of_true ?_ rfl
    rw [blur, isWordChar, hc, Bool.false_or]
    split
    · exact eq_of_beq ‹_›
    · rfl

theorem blur_eq_blur {c d : Char} : blur c = blur d ↔ LookAlike c d := by
  rw [LookAlike]
  cases hc : c.isAlphanum with
  | true =>
    cases hd : d.isAlphanum with
    | true => simp [blur_of_isAlphanum hc, blur_of_isAlphanum hd]
    | false =>
      rw [blur_eq_underscore.mpr hd, blur_eq_underscore, hc]
      simp only [Bool.true_eq_false, false_and, or_false, false_iff]
      rintro rfl
      rw [hc] at hd
      cases hd
  | false =>
    rw [blur_eq_underscore.mpr hc, eq_comm (a := '_'), blur_eq_underscore]
    refine ⟨fun hd => .inr ⟨rfl, hd⟩, ?_⟩
    rintro (rfl | ⟨-, hd⟩)
    · exact hc
    · exact hd

theorem map_blur_eq {a b : List Char} : a.map blur = b.map blur ↔ List.Forall₂ LookAlike a b := by
  rw [← List.forall₂_eq_eq_eq, List.forall₂_map_left_iff, List.forall₂_map_right_iff]
  simp only [blur_eq_blur]

theorem isDigit_blur (c : Char) : (blur c).isDigit = c.isDigit := by
  cases hc : c.isAlphanum with
  | true => rw [blur_of_isAlphanum hc]
  | false =>
    rw [blur_eq_underscore.mpr hc]
    rw [Char.isAlphanum, Bool.or_eq_false_iff] at hc
    rw [hc.2]
    decide

theorem unstarted_map_blur {cs : List Char} : Unstarted (cs.map blur) ↔ Unstarted cs := by
  cases cs with
  | nil => simp [Unstarted]
  | cons c rest => simp [Unstarted, isDigit_blur]

theorem started_of_unstarted {cs : List Char} (h : Unstarted cs) : started cs = '_' :: cs := by
  cases cs with
  | nil => rfl
  | cons c rest => rw [started, if_pos (h c rfl)]

theorem started_of_not_unstarted {cs : List Char} (h : ¬ Unstarted cs) : started cs = cs := by
  cases cs with
  | nil => exact absurd (fun c hc => by cases hc) h
  | cons c rest =>
    rw [started, if_neg]
    intro hdigit
    exact h fun d hd => by
      cases hd
      exact hdigit

theorem underscore_eq_map_blur {a b : List Char} : '_' :: a.map blur = b.map blur ↔
    ∃ c b', b = c :: b' ∧ c.isAlphanum = false ∧ List.Forall₂ LookAlike a b' := by
  rw [eq_comm, List.map_eq_cons_iff]
  constructor
  · rintro ⟨c, b', rfl, hc, hrest⟩
    exact ⟨c, b', rfl, blur_eq_underscore.mp hc, map_blur_eq.mp hrest.symm⟩
  · rintro ⟨c, b', rfl, hc, hrest⟩
    exact ⟨c, b', rfl, blur_eq_underscore.mpr hc, (map_blur_eq.mpr hrest).symm⟩

theorem Meets.not_unstarted {a b : List Char} (h : Meets a b) : ¬ Unstarted b := by
  obtain ⟨-, c, b', rfl, hc, -⟩ := h
  intro hb
  rw [Char.isAlphanum, Bool.or_eq_false_iff, hb c rfl] at hc
  cases hc.2

theorem clash_comm {a b : List Char} : Clash a b ↔ Clash b a := by
  have hflip {a b : List Char} (h : Clash a b) : Clash b a := by
    rcases h with h | h
    · exact .inl (map_blur_eq.mp (map_blur_eq.mpr h).symm)
    · exact .inr h.symm
  exact ⟨hflip, hflip⟩

/-- If both names get an underscore or none does, then they clash just if they look alike. -/
theorem clash_iff_of_unstarted_iff {a b : List Char} (h : Unstarted a ↔ Unstarted b) :
    Clash a b ↔ List.Forall₂ LookAlike a b := by
  refine or_iff_left ?_
  rintro (hmeets | hmeets)
  · exact hmeets.not_unstarted (h.mp hmeets.1)
  · exact hmeets.not_unstarted (h.mpr hmeets.1)

/-- If one name gets an underscore, then another clashes with it just if it has one already. -/
theorem clash_iff_of_unstarted {a b : List Char} (ha : Unstarted a) (hb : ¬ Unstarted b) :
    Clash a b ↔ '_' :: a.map blur = b.map blur := by
  rw [underscore_eq_map_blur]
  constructor
  · rintro (halike | hmeets | hmeets)
    · rw [← unstarted_map_blur, map_blur_eq.mpr halike, unstarted_map_blur] at ha
      exact absurd ha hb
    · exact hmeets.2
    · exact absurd hmeets.1 hb
  · exact fun hafter => .inr (.inl ⟨ha, hafter⟩)

/-- Two names have one identifier just if they clash. -/
theorem identifier_eq_iff {a b : String} :
    identifier a = identifier b ↔ Clash a.toList b.toList := by
  rw [identifier_eq_identifier]
  generalize a.toList = a
  generalize b.toList = b
  by_cases ha : Unstarted a
  · rw [started_of_unstarted (unstarted_map_blur.mpr ha)]
    by_cases hb : Unstarted b
    · rw [started_of_unstarted (unstarted_map_blur.mpr hb), List.cons_inj_right, map_blur_eq,
        clash_iff_of_unstarted_iff (iff_of_true ha hb)]
    · rw [started_of_not_unstarted (mt unstarted_map_blur.mp hb), clash_iff_of_unstarted ha hb]
  · rw [started_of_not_unstarted (mt unstarted_map_blur.mp ha)]
    by_cases hb : Unstarted b
    · rw [started_of_unstarted (unstarted_map_blur.mpr hb), clash_comm,
        clash_iff_of_unstarted hb ha, eq_comm]
    · rw [started_of_not_unstarted (mt unstarted_map_blur.mp hb), map_blur_eq,
        clash_iff_of_unstarted_iff (iff_of_false ha hb)]

/-- The digits stand before the letters. -/
theorem isDigit_of_isAlpha {c : Char} (h : c.isAlpha = true) : c.isDigit = false := by
  have hletter : 65 ≤ c.toNat := by
    rcases Bool.or_eq_true_iff.mp (h : (c.isUpper || c.isLower) = true) with hupper | hlower
    · exact UInt32.le_iff_toNat_le.mp (of_decide_eq_true hupper).1
    · have hsmall : 97 ≤ c.toNat :=
        UInt32.le_iff_toNat_le.mp (of_decide_eq_true (Bool.and_eq_true_iff.mp hlower).1)
      omega
  rw [Bool.eq_false_iff]
  intro hdigit
  have hlast : c.toNat ≤ 57 :=
    UInt32.le_iff_toNat_le.mp (of_decide_eq_true (Bool.and_eq_true_iff.mp hdigit).2)
  omega

/-- A word stands in an identifier as it is. -/
theorem map_blur_of_isWord {cs : List Char} (h : isWord cs = true) :
    cs.map blur = cs ∧ ¬ Unstarted cs := by
  cases cs with
  | nil => cases h
  | cons c rest =>
    rw [isWord, Bool.and_eq_true, List.all_eq_true] at h
    obtain ⟨hstart, hrest⟩ := h
    have hdigit : c.isDigit = false := by
      rcases Bool.or_eq_true_iff.mp hstart with halpha | hunderscore
      · exact isDigit_of_isAlpha halpha
      · rw [eq_of_beq hunderscore]
        decide
    have hsame : ∀ d ∈ c :: rest, blur d = d := by
      intro d hd
      rw [blur, if_pos]
      rcases List.mem_cons.mp hd with rfl | hd
      · rw [isWordChar_eq, hstart, Bool.true_or]
      · exact hrest d hd
    refine ⟨(List.map_congr_left hsame).trans (List.map_id' _), fun hunstarted => ?_⟩
    rw [hunstarted c rfl] at hdigit
    cases hdigit

/-- Names that are words clash only with themselves. -/
theorem clash_iff_of_isWord {a b : List Char} (ha : isWord a = true) (hb : isWord b = true) :
    Clash a b ↔ a = b := by
  obtain ⟨hsame, ha⟩ := map_blur_of_isWord ha
  obtain ⟨hsame', hb⟩ := map_blur_of_isWord hb
  rw [clash_iff_of_unstarted_iff (iff_of_false ha hb), ← map_blur_eq, hsame, hsame']

end SceneCodegen.Fragment
