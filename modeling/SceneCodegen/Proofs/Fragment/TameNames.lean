import SceneCodegen.Fragment.ConnectionList
import SceneCodegen.Fragment.Registry
import SceneCodegen.Proofs.Fragment.Handling
import SceneCodegen.Proofs.Fragment.Reading
import SceneCodegen.Proofs.Scan.Handlers

/-!
# Tame names

Names and types that are written into code must not hold characters that mean something between
names. What is made from tame names is tame; the names of properties and of constants are made so
that they always are. Texts that are written into comments only have to fit on a line.
-/
namespace SceneCodegen.Fragment

structure TameMember (m : DeclaredMember) : Prop where
  owner : Tame m.owner
  name : Tame m.name
  type : Tame m.type
  parameters : ∀ p ∈ m.parameters, Tame p.1 ∧ Tame p.2

structure TameClass (c : ScannedClass) : Prop where
  nameSpace : Tame c.nameSpace
  name : Tame c.nameWithTypeParameters
  around : ∀ d ∈ c.containingDeclarations, Tame d.1 ∧ Tame d.2
  members : ∀ m ∈ c.members, TameMember m

structure TameSlot (s : SingletonSlot) : Prop where
  name : Tame s.name
  record : ∀ r, s.record = some r → Tame r.nameSpace ∧ Tame r.name ∧ Tame r.fullyQualifiedName

/-- The calls of a record are made from tame names and types. -/
structure TameRecord (r : ClassRecord) : Prop where
  nameSpace : Tame r.nameSpace
  name : Tame r.name
  methods : ∀ p ∈ r.methods, ∃ m : Symbol.Member,
    p.2 = Scan.methodCall m ∧ Tame m.name ∧ ∀ q ∈ m.parameters, Tame q.type

/-- The texts of a connection stand in a comment. -/
structure TameConnection (k : Scene.Connection) : Prop where
  scenePath : OneLine k.scenePath
  fromNode : OneLine k.fromNode
  signal : OneLine k.signal

theorem tame_methodCall {m : Symbol.Member} (hname : Tame m.name)
    (htypes : ∀ q ∈ m.parameters, Tame q.type) : Tame (Scan.methodCall m) := by
  have hjoin : Tame (Text.join ", " (m.parameters.map fun p => "default(" ++ p.type ++ ")")) := by
    refine tame_join (by decide) fun part hpart => ?_
    obtain ⟨q, hq, rfl⟩ := List.mem_map.mp hpart
    simp +decide [htypes q hq]
  simp +decide [Scan.methodCall, hname, hjoin]

theorem isLower_iff {c : Char} : c.isLower = true ↔ 'a'.val ≤ c.val ∧ c.val ≤ 'z'.val :=
  Bool.and_eq_true_iff.trans (and_congr decide_eq_true_iff decide_eq_true_iff)

/-- A small letter is raised by going 32 characters back. -/
theorem toUpper_of_isLower {c : Char} (h : c.isLower = true) :
    c.toUpper.isUpper = true ∧ c.toUpper.toNat + 32 = c.toNat := by
  have hlower := isLower_iff.mp h
  have hlow : 97 ≤ c.val.toNat := UInt32.le_iff_toNat_le.mp hlower.1
  have hhigh : c.val.toNat ≤ 122 := UInt32.le_iff_toNat_le.mp hlower.2
  have hval : c.toUpper.val = c.val + ('A'.val - 'a'.val) := by
    delta Char.toUpper
    rw [dif_pos hlower]
  have hback : c.toUpper.val.toNat + 32 = c.val.toNat := by
    have hstep : ('A'.val - 'a'.val).toNat = 4294967264 := rfl
    rw [hval, UInt32.toNat_add, hstep]
    omega
  have hfirst : 65 ≤ c.toUpper.val.toNat := by omega
  have hlast : c.toUpper.val.toNat ≤ 90 := by omega
  exact ⟨decide_eq_true
    ⟨UInt32.le_iff_toNat_le.mpr hfirst, UInt32.le_iff_toNat_le.mpr hlast⟩, hback⟩

theorem toUpper_of_not_isLower {c : Char} (h : ¬c.isLower = true) : c.toUpper = c :=
  dif_neg fun hlower => h (isLower_iff.mpr hlower)

theorem isWordChar_toUpper {c : Char} (h : isWordChar c = true) : isWordChar c.toUpper = true := by
  by_cases hlower : c.isLower = true
  · have hword : isWordChar c.toUpper = (c.toUpper.isUpper || c.toUpper.isLower ||
        c.toUpper.isDigit || c.toUpper == '_') := rfl
    rw [hword, (toUpper_of_isLower hlower).1, Bool.true_or, Bool.true_or, Bool.true_or]
  · rwa [toUpper_of_not_isLower hlower]

/-- Text of letters, digits and underscores is tame. -/
theorem tame_of_word {s : String} (h : ∀ c ∈ s.toList, isWordChar c = true) : Tame s := by
  intro c hc
  have hword := h c hc
  have hbreak : isLineBreak c = false := by
    rw [Bool.eq_false_iff]
    intro hbreak
    simp only [isLineBreak, Bool.or_eq_true, beq_iff_eq] at hbreak
    have hne (n : Nat) (hn : isWordChar (Char.ofNat n) = false) : c.toNat ≠ n := by
      rintro rfl
      rw [Char.ofNat_toNat, hword] at hn
      cases hn
    have hlow := hne 10 (by decide)
    have hreturn := hne 13 (by decide)
    have hnext := hne 0x85 (by decide)
    have hline := hne 0x2028 (by decide)
    have hparagraph := hne 0x2029 (by decide)
    omega
  refine ⟨?_, ?_, ?_, ?_, hbreak⟩ <;> rintro rfl <;> exact absurd hword (by decide)

theorem isWordChar_underscored {cs : List Char} {c : Char}
    (h : c ∈ cs.map fun c => if isWordChar c then c else '_') : isWordChar c = true := by
  obtain ⟨c, -, rfl⟩ := List.mem_map.mp h
  split
  · assumption
  · decide

theorem tame_pascalCase (name : String) : Tame (pascalCase name) := by
  refine tame_of_word fun c hc => ?_
  rw [pascalCase, String.toList_ofList, List.mem_flatMap] at hc
  obtain ⟨part, hpart, hc⟩ := hc
  have hword {c : Char} (hc : c ∈ part) : isWordChar c = true :=
    isWordChar_underscored (Text.mem_of_mem_fields hpart hc)
  cases part with
  | nil => cases hc
  | cons first rest =>
    rcases List.mem_cons.mp hc with rfl | hc
    · exact isWordChar_toUpper (hword List.mem_cons_self)
    · exact hword (List.mem_cons_of_mem first hc)

theorem tame_identifier (name : String) : Tame (identifier name) := by
  have hchars {c : Char} : c ∈ name.toList.map (fun c => if isWordChar c then c else '_') →
      isWordChar c = true := isWordChar_underscored
  have hword {word : List Char} (h : ∀ c ∈ word, isWordChar c = true) :
      Tame (if keywords.contains (String.ofList word) then "@" ++ String.ofList word
        else String.ofList word) := by
    have htame : Tame (String.ofList word) := tame_of_word (by rwa [String.toList_ofList])
    split
    · exact tame_append.mpr ⟨by decide, htame⟩
    · exact htame
  rw [identifier]
  generalize name.toList.map (fun c => if isWordChar c then c else '_') = chars at hchars
  refine hword fun c hc => ?_
  cases chars with
  | nil =>
    obtain rfl := List.mem_singleton.mp hc
    decide
  | cons first rest =>
    dsimp only at hc
    split at hc
    · rcases List.mem_cons.mp hc with rfl | hc
      · decide
      · exact hchars hc
    · exact hchars hc

section
variable {m : DeclaredMember} (h : TameMember m)
include h

theorem TameMember.parameterList : Tame (HelperState.parameterList m) := by
  refine tame_join (by decide) fun part hpart => ?_
  obtain ⟨p, hp, rfl⟩ := List.mem_map.mp hpart
  simp +decide [(h.parameters p hp).1, (h.parameters p hp).2]

theorem TameMember.forwarded : Tame (HelperState.forwarded m) := by
  refine tame_join (by decide) fun part hpart => ?_
  obtain ⟨p, hp, rfl⟩ := List.mem_map.mp hpart
  simp +decide [(h.parameters p hp).1]

theorem TameMember.signal {signal : String} (hsignal : signalName? m.name = some signal) :
    Tame signal := by
  have hname := h.name
  rw [(signalName?_eq_some.mp hsignal).2, tame_append] at hname
  exact hname.1

theorem TameMember.cref : OneLine (includeGlobal (m.owner ++ "." ++ m.name)) := by
  have hqualified : Tame (m.owner ++ "." ++ m.name) := by
    simp +decide [h.owner, h.name]
  rw [includeGlobal]
  split
  · exact hqualified.oneLine
  · exact oneLine_append.mpr ⟨by decide, hqualified.oneLine⟩

end

end SceneCodegen.Fragment
