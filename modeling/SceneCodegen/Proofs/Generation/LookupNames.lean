import SceneCodegen.Generation.Rules
import SceneCodegen.Proofs.Scan.Names

/-!
# Lookup names of type names

A type name stands for a lookup name: what is left of it without the global prefix, without blanks
at its ends and without type arguments at its end. The type arguments are taken to begin at the
first angle bracket of the last line. So the names of a type stand for its own lookup name unless it
has type parameters and brackets stand in what is around it.
-/
namespace SceneCodegen.Generation

def lastLine (cs : List Char) : List Char := (cs.reverse.takeWhile (· != '\n')).reverse

theorem lastLine_append (front : List Char) {back : List Char} (h : '\n' ∉ back) :
    lastLine (front ++ back) = lastLine front ++ back := by
  have hkept : ∀ c ∈ back.reverse, (c != '\n') = true := by
    intro c hc
    rw [List.mem_reverse] at hc
    exact bne_iff_ne.mpr fun he => h (he ▸ hc)
  rw [lastLine, List.reverse_append, List.takeWhile_append_of_pos hkept, List.reverse_append,
    List.reverse_reverse, lastLine]

theorem lastLine_of_not_mem {cs : List Char} (h : '\n' ∉ cs) : lastLine cs = cs :=
  lastLine_append [] h

theorem lastLine_suffix (cs : List Char) : lastLine cs <:+ cs := by
  have hbegins := List.takeWhile_prefix (l := cs.reverse) (· != '\n')
  rw [← List.reverse_suffix, List.reverse_reverse] at hbegins
  exact hbegins

theorem not_mem_lastLine (cs : List Char) : '\n' ∉ lastLine cs := by
  intro hmem
  rw [lastLine, List.mem_reverse] at hmem
  exact absurd (List.mem_takeWhile_imp hmem) (by decide)

/-- What stands before the last line has no line of its own. -/
theorem exists_eq_append_lastLine (cs : List Char) :
    ∃ before, cs = before ++ lastLine cs ∧ lastLine before = [] := by
  have hcut := List.takeWhile_append_dropWhile (p := (· != '\n')) (l := cs.reverse)
  refine ⟨(cs.reverse.dropWhile (· != '\n')).reverse, ?_, ?_⟩
  · rw [lastLine, ← List.reverse_append, hcut, List.reverse_reverse]
  · rw [lastLine, List.reverse_reverse, List.reverse_eq_nil_iff, List.takeWhile_eq_nil_iff]
    intro h
    simpa using List.dropWhile_get_zero_not (· != '\n') cs.reverse h

theorem dropTypeArguments_eq (cs : List Char) : dropTypeArguments cs =
    match (lastLine cs).dropWhile (· != '<') with
    | [] => cs
    | arguments =>
      if arguments.getLast? == some '>' then cs.take (cs.length - arguments.length) else cs := rfl

theorem dropTypeArguments_isPrefix (cs : List Char) : dropTypeArguments cs <+: cs := by
  rw [dropTypeArguments_eq]
  split
  · exact List.prefix_rfl
  · split
    · exact List.take_prefix _ cs
    · exact List.prefix_rfl

/-- Nothing is cut off a name that does not end with a bracket. -/
theorem dropTypeArguments_of_last {cs : List Char} (h : cs.getLast? ≠ some '>') :
    dropTypeArguments cs = cs := by
  have hsuffix : (lastLine cs).dropWhile (· != '<') <:+ cs :=
    (List.dropWhile_suffix _).trans (lastLine_suffix cs)
  rw [dropTypeArguments_eq]
  split
  · rfl
  · refine if_neg fun hlast => h ?_
    obtain ⟨front, hfront⟩ := hsuffix
    rw [← hfront, List.getLast?_append, eq_of_beq hlast, Option.some_or]

/-- The first bracket of the last line is where type arguments are cut off. -/
theorem dropTypeArguments_append {front inner : List Char} (hfront : '<' ∉ lastLine front)
    (hinner : '\n' ∉ inner) : dropTypeArguments (front ++ '<' :: (inner ++ ['>'])) = front := by
  have hback : '\n' ∉ '<' :: (inner ++ ['>']) := by simpa using hinner
  have hkept : ∀ c ∈ lastLine front, (c != '<') = true :=
    fun c hc => bne_iff_ne.mpr fun he => hfront (he ▸ hc)
  have hlast : ('<' :: (inner ++ ['>'])).getLast? = some '>' := by
    rw [← List.cons_append, List.getLast?_append]
    rfl
  have harguments : (lastLine (front ++ '<' :: (inner ++ ['>']))).dropWhile (· != '<') =
      '<' :: (inner ++ ['>']) := by
    rw [lastLine_append front hback, List.dropWhile_append_of_pos hkept]
    rfl
  rw [dropTypeArguments_eq, harguments]
  simp only [hlast, beq_self_eq_true, if_true]
  simp

theorem exists_of_mem_lastLine {cs : List Char} (h : '<' ∈ lastLine cs) :
    ∃ front inner, cs = front ++ '<' :: inner ∧ '<' ∉ lastLine front ∧ '\n' ∉ inner := by
  obtain ⟨before, hcs, hbefore⟩ := exists_eq_append_lastLine cs
  obtain ⟨front, inner, hline, hfirst⟩ := List.eq_append_cons_of_mem h
  have hbreak := not_mem_lastLine cs
  rw [hline, List.mem_append, List.mem_cons, not_or, not_or] at hbreak
  refine ⟨before ++ front, inner, ?_, ?_, hbreak.2.2⟩
  · rw [List.append_assoc, ← hline]
    exact hcs
  · rw [lastLine_append before hbreak.1, hbefore]
    exact hfirst

/-- Type parameters as they stand at the end of a name, if any. -/
def IsParameterList (cs : List Char) : Prop :=
  cs = [] ∨ ∃ inner, cs = '<' :: (inner ++ ['>']) ∧ '\n' ∉ inner

section
variable {front whole parameters : List Char} (hparameters : IsParameterList parameters)
include hparameters

/-- Cutting off type arguments leaves nothing of the parameters. -/
theorem dropTypeArguments_parameters_isPrefix (front : List Char) :
    dropTypeArguments (front ++ parameters) <+: front := by
  rcases hparameters with rfl | ⟨inner, rfl, hinner⟩
  · rw [List.append_nil]
    exact dropTypeArguments_isPrefix front
  · by_cases hbracket : '<' ∈ lastLine front
    · obtain ⟨outer, between, rfl, houter, hbetween⟩ := exists_of_mem_lastLine hbracket
      have hall : '\n' ∉ between ++ '<' :: inner := by simp [hbetween, hinner]
      have hcut := dropTypeArguments_append houter hall
      simp only [List.append_assoc, List.cons_append] at hcut ⊢
      rw [hcut]
      exact List.prefix_append _ _
    · exact ⟨[], by rw [List.append_nil, dropTypeArguments_append hbracket hinner]⟩

/-- It leaves all that is before them just if there are none or no bracket comes first. -/
theorem dropTypeArguments_parameters_iff (hlast : front.getLast? ≠ some '>') :
    dropTypeArguments (front ++ parameters) = front ↔ parameters = [] ∨ '<' ∉ lastLine front := by
  rcases hparameters with rfl | ⟨inner, rfl, hinner⟩
  · rw [List.append_nil]
    exact iff_of_true (dropTypeArguments_of_last hlast) (.inl rfl)
  · rw [or_iff_right (List.cons_ne_nil _ _)]
    refine ⟨fun heq hbracket => ?_, fun hbracket => dropTypeArguments_append hbracket hinner⟩
    obtain ⟨outer, between, rfl, houter, hbetween⟩ := exists_of_mem_lastLine hbracket
    have hall : '\n' ∉ between ++ '<' :: inner := by simp [hbetween, hinner]
    have hcut := dropTypeArguments_append houter hall
    simp only [List.append_assoc, List.cons_append] at hcut heq
    rw [hcut] at heq
    simpa using congrArg List.length heq

omit hparameters in
theorem getLast?_dropWhile {p : Char → Bool} {last : Char} (hlast : front.getLast? = some last)
    (hp : p last = false) : (front.dropWhile p).getLast? = some last := by
  have hne : front.dropWhile p ≠ [] := fun hnil => by
    have hall := List.dropWhile_eq_nil_iff.mp hnil last (List.mem_of_getLast? hlast)
    simp [hp] at hall
  obtain ⟨before, hfront⟩ := List.dropWhile_suffix p (l := front)
  rw [← hfront, List.getLast?_append, List.getLast?_eq_some_getLast hne, Option.some_or] at hlast
  rw [List.getLast?_eq_some_getLast hne, hlast]

/-- Parameters keep their place when blanks are trimmed. -/
theorem trimBoth_append_parameters {p : Char → Bool} {last : Char}
    (hlast : (front.dropWhile p).getLast? = some last) (hp : p last = false)
    (hend : p '>' = false) :
    Text.trimBoth p (front ++ parameters) = front.dropWhile p ++ parameters := by
  have hne : (front.dropWhile p).isEmpty = false := by
    cases hdrop : front.dropWhile p with
    | nil => rw [hdrop] at hlast; cases hlast
    | cons c rest => rfl
  rw [Text.trimBoth, List.dropWhile_append, hne, if_neg Bool.false_ne_true,
    Text.dropEnd_append hlast hp]
  rcases hparameters with rfl | ⟨inner, rfl, -⟩
  · rfl
  · simp [hend]

/-- With blanks trimmed besides, all of a text is left just if it is what stands before the
parameters, begins with no blank, and is left by the cut. -/
theorem cut_eq_iff (hsuffix : front <:+ whole) {last : Char} (hlast : front.getLast? = some last)
    (hblank : Text.isBlank last = false) (hbracket : last ≠ '>') :
    dropTypeArguments (Text.trimBoth Text.isBlank (front ++ parameters)) = whole ↔
      front = whole ∧ (∀ c, whole.head? = some c → Text.isBlank c = false) ∧
        (parameters = [] ∨ '<' ∉ lastLine whole) := by
  have hend := getLast?_dropWhile hlast hblank
  have hback : (front.dropWhile Text.isBlank).getLast? ≠ some '>' := by
    rw [hend]
    exact fun he => hbracket (Option.some.inj he)
  rw [trimBoth_append_parameters hparameters hend hblank (by decide)]
  constructor
  · intro heq
    have hle := (dropTypeArguments_parameters_isPrefix hparameters
      (front.dropWhile Text.isBlank)).length_le
    rw [heq] at hle
    have hdrop := List.dropWhile_suffix Text.isBlank (l := front)
    obtain rfl : front = whole :=
      hsuffix.eq_of_length_le (Nat.le_trans hle hdrop.length_le)
    have hkept : front.dropWhile Text.isBlank = front := hdrop.eq_of_length_le hle
    rw [hkept] at heq hback
    refine ⟨rfl, fun c hc => ?_, (dropTypeArguments_parameters_iff hparameters hback).mp heq⟩
    have hhead := List.head?_dropWhile_not Text.isBlank front
    rw [hkept, hc] at hhead
    simpa using hhead
  · rintro ⟨rfl, hhead, hcut⟩
    rw [Text.dropWhile_of_head hhead] at hback ⊢
    exact (dropTypeArguments_parameters_iff hparameters hback).mpr hcut

end

/-- Names such as those of types, of namespaces and of type parameters: they hold no blanks, no
angle brackets and no colons. -/
structure IsName (s : String) : Prop where
  filled : s ≠ ""
  plain : ∀ c ∈ s.toList, Text.isBlank c = false ∧ c ≠ '<' ∧ c ≠ '>' ∧ c ≠ ':'

/-- The lookup name that a name stands for, by its characters. -/
theorem toList_lookupNameOf (name : String) : (lookupNameOf name).toList =
    dropTypeArguments (Text.trimBoth Text.isBlank
      (if Symbol.globalPrefix.toList <+: name.toList then
        name.toList.drop Symbol.globalPrefix.toList.length
      else name.toList)) := by
  rw [lookupNameOf, String.toList_ofList, Text.hasPrefix]
  congr 2
  by_cases hbegins : Symbol.globalPrefix.toList <+: name.toList
  · rw [if_pos hbegins, if_pos (List.isPrefixOf_iff_prefix.mpr hbegins), Text.dropPrefix,
      String.toList_ofList]
  · rw [if_neg hbegins, if_neg (mt List.isPrefixOf_iff_prefix.mp hbegins)]

theorem lookupNameOf_sublist (name : String) :
    (lookupNameOf name).toList.Sublist name.toList := by
  have htrim (cs : List Char) : (Text.trimBoth Text.isBlank cs).Sublist cs := by
    have hfront := List.dropWhile_sublist Text.isBlank (l := cs)
    have hback :=
      (List.dropWhile_sublist Text.isBlank (l := (cs.dropWhile Text.isBlank).reverse)).reverse
    rw [List.reverse_reverse] at hback
    exact hback.trans hfront
  rw [toList_lookupNameOf]
  refine (dropTypeArguments_isPrefix _).sublist.trans ((htrim _).trans ?_)
  split
  · exact List.drop_sublist _ _
  · exact .refl _

/-- Parameters do not make a name begin with the global prefix. -/
theorem globalPrefix_prefix_append_iff {front parameters : List Char}
    (hparameters : IsParameterList parameters) :
    Symbol.globalPrefix.toList <+: front ++ parameters ↔ Symbol.globalPrefix.toList <+: front := by
  refine ⟨fun h => ?_, fun h => h.trans (List.prefix_append _ _)⟩
  rcases hparameters with rfl | ⟨inner, rfl, -⟩
  · rwa [List.append_nil] at h
  · rcases List.prefix_or_prefix_of_prefix h (List.prefix_append front _) with hfront
      | ⟨rest, hrest⟩
    · exact hfront
    · rw [← hrest, List.prefix_append_right_inj] at h
      cases rest with
      | nil =>
        rw [List.append_nil] at hrest
        exact ⟨[], by rw [List.append_nil, hrest]⟩
      | cons c rest =>
        obtain ⟨rfl, -⟩ := List.cons_prefix_cons.mp h
        have hmem : '<' ∈ Symbol.globalPrefix.toList := by
          rw [← hrest]
          simp
        exact absurd hmem (by decide)

end SceneCodegen.Generation

namespace SceneCodegen.Symbol.Declaration
open Generation

/-- A type whose own name and type parameters are such names. -/
structure Named (d : Declaration) : Prop where
  name : IsName d.name
  typeParameters : ∀ parameter ∈ d.typeParameters, IsName parameter

/-- The type parameters as they follow the name of a type. -/
def parameterList (d : Declaration) : String :=
  if d.typeParameters.isEmpty then "" else "<" ++ Text.join ", " d.typeParameters ++ ">"

theorem qualifiedName_eq (d : Declaration) : d.qualifiedName = d.lookupName ++ d.parameterList := by
  rw [qualifiedName, lookupName, qualify_eq, qualify_eq, nameWithTypeParameters, parameterList]
  split <;> simp [String.append_assoc]

theorem parameterList_eq_nil_iff {d : Declaration} :
    d.parameterList.toList = [] ↔ d.typeParameters = [] := by
  rw [parameterList]
  split
  · next h => exact iff_of_true rfl (List.isEmpty_iff.mp h)
  · next h =>
    refine iff_of_false (fun hnil => ?_) fun hnil => h (List.isEmpty_iff.mpr hnil)
    simp at hnil

/-- No blank stands at the beginning of the lookup name. -/
def Flush (d : Declaration) : Prop :=
  ∀ c, d.lookupName.toList.head? = some c → Text.isBlank c = false

/-- The lookup name does not begin like a name with the global prefix. -/
def Unprefixed (d : Declaration) : Prop := ¬ globalPrefix.toList <+: d.lookupName.toList

/-- There are no type parameters, or no bracket stands before them. -/
def Unbracketed (d : Declaration) : Prop :=
  d.typeParameters = [] ∨ '<' ∉ lastLine d.lookupName.toList

namespace Named
variable {d : Declaration} (h : d.Named)
include h

theorem isParameterList : IsParameterList d.parameterList.toList := by
  unfold parameterList
  split
  · exact .inl rfl
  · refine .inr ⟨(Text.join ", " d.typeParameters).toList, by simp, fun hmem => ?_⟩
    obtain hc | hc | ⟨parameter, hparameter, hc⟩ := mem_parameters hmem
    · simp at hc
    · simp at hc
    · exact absurd ((h.typeParameters parameter hparameter).plain _ hc).1 (by decide)

theorem exists_last : ∃ last, d.lookupName.toList.getLast? = some last ∧
    Text.isBlank last = false ∧ last ≠ '>' ∧ last ≠ ':' := by
  have hne : d.name.toList ≠ [] := fun hnil => h.name.filled (String.toList_injective hnil)
  obtain ⟨hblank, -, hbracket, hcolon⟩ := h.name.plain _ (List.getLast_mem hne)
  refine ⟨_, ?_, hblank, hbracket, hcolon⟩
  rw [lookupName, qualify_eq, String.toList_append, List.getLast?_append,
    List.getLast?_eq_some_getLast hne, Option.some_or]

/-- The lookup name, followed by parameters or not, stands for itself. -/
theorem lookupNameOf_append_iff {parameters : String}
    (hparameters : IsParameterList parameters.toList) :
    lookupNameOf (d.lookupName ++ parameters) = d.lookupName ↔
      d.Unprefixed ∧ d.Flush ∧ (parameters.toList = [] ∨ '<' ∉ lastLine d.lookupName.toList) := by
  obtain ⟨last, hlast, hblank, hbracket, hcolon⟩ := h.exists_last
  rw [← String.toList_inj, toList_lookupNameOf, String.toList_append]
  by_cases hbegins : globalPrefix.toList <+: d.lookupName.toList
  · rw [if_pos ((globalPrefix_prefix_append_iff hparameters).mpr hbegins)]
    obtain ⟨rest, hrest⟩ := hbegins
    have hlonger : rest.length < d.lookupName.toList.length := by
      rw [← hrest, List.length_append]
      exact Nat.lt_add_of_pos_left (by decide)
    have hend : rest.getLast? = some last := by
      rw [← hrest, List.getLast?_append] at hlast
      cases hback : rest.getLast? with
      | some c =>
        rwa [hback, Option.some_or] at hlast
      | none =>
        rw [hback, Option.none_or] at hlast
        exact absurd (Option.some.inj hlast).symm hcolon
    rw [← hrest, List.append_assoc, List.drop_left, hrest,
      cut_eq_iff hparameters ⟨_, hrest⟩ hend hblank hbracket]
    -- What is behind the prefix is shorter than the lookup name, so this does not come out again.
    refine iff_of_false (fun hcut => ?_) fun hown => hown.1 ⟨rest, hrest⟩
    rw [hcut.1] at hlonger
    exact Nat.lt_irrefl _ hlonger
  · rw [if_neg (mt (globalPrefix_prefix_append_iff hparameters).mp hbegins),
      cut_eq_iff hparameters (List.suffix_refl _) hlast hblank hbracket]
    exact ⟨fun hcut => ⟨hbegins, hcut.2⟩, fun hown => ⟨rfl, hown.2⟩⟩

theorem lookupNameOf_lookupName_iff :
    lookupNameOf d.lookupName = d.lookupName ↔ d.Unprefixed ∧ d.Flush := by
  have hown := @lookupNameOf_append_iff d h "" (.inl rfl)
  rw [String.append_empty] at hown
  rw [hown]
  simp

theorem lookupNameOf_qualifiedName_iff :
    lookupNameOf d.qualifiedName = d.lookupName ↔ d.Unprefixed ∧ d.Flush ∧ d.Unbracketed := by
  rw [qualifiedName_eq, h.lookupNameOf_append_iff h.isParameterList, parameterList_eq_nil_iff,
    Unbracketed]

/-- So does it behind the global prefix. -/
theorem lookupNameOf_global_append_iff {parameters : String}
    (hparameters : IsParameterList parameters.toList) :
    lookupNameOf (globalPrefix ++ (d.lookupName ++ parameters)) = d.lookupName ↔
      d.Flush ∧ (parameters.toList = [] ∨ '<' ∉ lastLine d.lookupName.toList) := by
  obtain ⟨last, hlast, hblank, hbracket, -⟩ := h.exists_last
  rw [← String.toList_inj, toList_lookupNameOf, String.toList_append, String.toList_append,
    if_pos (List.prefix_append _ _), List.drop_left,
    cut_eq_iff hparameters (List.suffix_refl _) hlast hblank hbracket]
  exact and_iff_right rfl

theorem lookupNameOf_displayName_iff :
    lookupNameOf d.displayName = d.lookupName ↔ d.Flush ∧ d.Unbracketed := by
  rw [displayName, qualifiedName_eq, h.lookupNameOf_global_append_iff h.isParameterList,
    parameterList_eq_nil_iff, Unbracketed]

end Named
end SceneCodegen.Symbol.Declaration
