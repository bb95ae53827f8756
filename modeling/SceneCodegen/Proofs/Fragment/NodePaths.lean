import SceneCodegen.Proofs.Fragment.Reading
import SceneCodegen.Scan.Record

/-!
# Node paths

The path that an accessor looks up is the text of what its marker gives, or is made from the name of
the member if that text is blank. A text stands for itself, with all the characters it holds; any
other value is shown in a form that fits on a line. So a path is broken into lines just by the
characters of a text or of a name.
-/
namespace SceneCodegen.Fragment

@[simp] theorem oneLine_ofList {cs : List Char} :
    OneLine (String.ofList cs) ↔ ∀ c ∈ cs, isLineBreak c = false := by
  rw [OneLine, String.toList_ofList]

theorem oneLine_join {sep : String} {parts : List String} (hsep : OneLine sep)
    (h : ∀ part ∈ parts, OneLine part) : OneLine (Text.join sep parts) := by
  intro c hc
  rcases Text.mem_of_mem_join hc with hc | ⟨part, hpart, hc⟩
  · exact hsep c hc
  · exact h part hpart c hc

theorem isPrintable_of_isLineBreak {c : Char} (h : isLineBreak c = true) :
    Text.isPrintable c = false := by
  unfold isLineBreak at h
  unfold Text.isPrintable
  generalize c.toNat = n at h ⊢
  simp only [Bool.or_eq_true, beq_iff_eq] at h
  rcases h with (((rfl | rfl) | rfl) | rfl) | rfl <;> decide +kernel

theorem isLineBreak_digitChar (n : Nat) : isLineBreak n.digitChar = false := by
  have hsmall : ∀ n < 16, isLineBreak n.digitChar = false := by decide
  by_cases hn : n < 16
  · exact hsmall n hn
  · have hother : n.digitChar = '*' := by
      unfold Nat.digitChar
      iterate 16 rw [if_neg (by omega)]
    rw [hother]
    decide

theorem isLineBreak_of_mem_toDigits {base n : Nat} (hbase : 1 < base) {c : Char}
    (h : c ∈ Nat.toDigits base n) : isLineBreak c = false := by
  induction n using Nat.strongRecOn with
  | _ n ih =>
    rw [Nat.toDigits_eq_if hbase] at h
    split at h
    · rw [List.mem_singleton.mp h]
      exact isLineBreak_digitChar n
    · rename_i hlarge
      rcases List.mem_append.mp h with h | h
      · exact ih (n / base) (Nat.div_lt_self (by omega) hbase) h
      · rw [List.mem_singleton.mp h]
        exact isLineBreak_digitChar _

theorem isLineBreak_of_mem_hexDigits {width n : Nat} {c : Char}
    (h : c ∈ Text.hexDigits width n) : isLineBreak c = false := by
  rcases List.mem_append.mp h with h | h
  · rw [(List.mem_replicate.mp h).2]
    decide
  · exact isLineBreak_of_mem_toDigits (by decide) h

theorem isLineBreak_of_mem_hexEscape {n : Nat} {c : Char} (h : c ∈ Text.hexEscape n) :
    isLineBreak c = false := by
  have hdigits {letter : Char} {width : Nat} (hletter : isLineBreak letter = false)
      (h : c ∈ '\\' :: letter :: Text.hexDigits width n) : isLineBreak c = false := by
    rcases List.mem_cons.mp h with rfl | h
    · rfl
    · rcases List.mem_cons.mp h with rfl | h
      · exact hletter
      · exact isLineBreak_of_mem_hexDigits h
  unfold Text.hexEscape at h
  split at h
  · exact hdigits rfl h
  · split at h
    · exact hdigits rfl h
    · exact hdigits rfl h

/-- Line breaks are escaped in a quoted text, as they have no printed form. -/
theorem isLineBreak_of_mem_quoteChar {quote c d : Char} (hquote : isLineBreak quote = false)
    (h : d ∈ Text.quoteChar quote c) : isLineBreak d = false := by
  have hpair {e : Char} (he : isLineBreak e = false) (h : d ∈ ['\\', e]) :
      isLineBreak d = false := by
    rcases List.mem_pair.mp h with rfl | rfl
    · rfl
    · exact he
  unfold Text.quoteChar at h
  split at h
  · rename_i hescaped
    simp only [Bool.or_eq_true, beq_iff_eq] at hescaped
    rcases hescaped with rfl | rfl
    · exact hpair hquote h
    · exact hpair rfl h
  · split at h
    · exact hpair rfl h
    · split at h
      · exact hpair rfl h
      · split at h
        · exact hpair rfl h
        · split at h
          · rename_i hprinted
            rw [List.mem_singleton.mp h, Bool.eq_false_iff]
            intro hbreak
            rw [isPrintable_of_isLineBreak hbreak] at hprinted
            cases hprinted
          · exact isLineBreak_of_mem_hexEscape h

theorem oneLine_quoted (s : String) : OneLine (Text.quoted s) := by
  unfold Text.quoted
  extract_lets cs quote
  have hquote : isLineBreak quote = false := by
    unfold quote
    split <;> decide
  rw [oneLine_ofList]
  intro c hc
  rcases List.mem_append.mp hc with hc | hc
  · rcases List.mem_cons.mp hc with rfl | hc
    · exact hquote
    · obtain ⟨d, -, hd⟩ := List.mem_flatMap.mp hc
      exact isLineBreak_of_mem_quoteChar hquote hd
  · rw [List.mem_singleton.mp hc]
    exact hquote

theorem oneLine_int (n : Int) : OneLine (toString n) := by
  have hnat (m : Nat) : OneLine (toString m) := by
    intro c hc
    have hdigits : c ∈ Nat.toDigits 10 m := by simpa using hc
    exact isLineBreak_of_mem_toDigits (by decide) hdigits
  cases n with
  | ofNat m => exact hnat m
  | negSucc m => exact oneLine_append.mpr ⟨by decide, hnat (m + 1)⟩

section
variable {digits : List Char} (h : ∀ c ∈ digits, isLineBreak c = false)
include h

theorem isLineBreak_of_mem_digitsText (style : Number.NumberStyle) (point : Int) {c : Char}
    (hc : c ∈ style.digitsText digits point) : isLineBreak c = false := by
  have hzeros (n : Int) (c : Char) (hc : c ∈ Number.zeros n) : isLineBreak c = false := by
    rw [(List.mem_replicate.mp hc).2]
    decide
  have hwritten (n : Nat) (c : Char) (hc : c ∈ Nat.toDigits 10 n) : isLineBreak c = false :=
    isLineBreak_of_mem_toDigits (by decide) hc
  have htake (n : Nat) (c : Char) (hc : c ∈ digits.take n) : isLineBreak c = false :=
    h c (List.mem_of_mem_take hc)
  have hdrop (n : Nat) (c : Char) (hc : c ∈ digits.drop n) : isLineBreak c = false :=
    h c (List.mem_of_mem_drop hc)
  revert c
  unfold Number.NumberStyle.digitsText
  extract_lets count exponent written fraction
  have hfraction : ∀ c ∈ fraction, isLineBreak c = false := by
    unfold fraction
    split
    · simp
    · simp only [List.forall_mem_cons]
      exact ⟨by decide, hdrop 1⟩
  have hsign : isLineBreak (if exponent < 0 then '-' else '+') = false := by
    split <;> decide
  split
  · split
    · simp only [List.forall_mem_append, List.forall_mem_cons]
      exact ⟨by decide, by decide, hzeros _, h⟩
    · split
      · simp only [List.forall_mem_append, List.forall_mem_cons]
        exact ⟨⟨h, hzeros _⟩, by decide, by decide, by simp⟩
      · simp only [List.forall_mem_append, List.forall_mem_cons]
        exact ⟨htake _, by decide, hdrop _⟩
  · simp only [List.forall_mem_append, List.forall_mem_cons]
    exact ⟨⟨htake 1, hfraction⟩, by decide, hsign, hzeros _, hwritten _⟩

end

theorem oneLine_float (x : Number.Binary) : OneLine (Number.plainStyle.text x) := by
  have hsign : OneLine (if x.isNegative then "-" else "") := by
    split <;> decide
  unfold Number.NumberStyle.text
  extract_lets sign
  split
  · decide
  · exact oneLine_append.mpr ⟨hsign, by decide⟩
  · exact oneLine_append.mpr ⟨hsign, by decide⟩
  · refine oneLine_append.mpr ⟨hsign, oneLine_ofList.mpr fun c hc => ?_⟩
    refine isLineBreak_of_mem_digitsText (fun d hd => ?_) _ _ hc
    have hdigit := List.mem_reverse.mp hd
    exact isLineBreak_of_mem_toDigits (by decide)
      (List.mem_reverse.mp ((List.dropWhile_sublist _).subset hdigit))

mutual

/-- A value that is shown fits on a line. -/
theorem oneLine_shown : ∀ x : Json, OneLine x.shown
  | .null => by decide
  | .bool b => by cases b <;> decide
  | .int n => oneLine_int n
  | .float x => oneLine_float x
  | .text s => oneLine_quoted s
  | .list items => by
    rw [Json.shown]
    refine oneLine_append.mpr ⟨oneLine_append.mpr ⟨by decide, ?_⟩, by decide⟩
    exact oneLine_join (by decide) (oneLine_shownItems items)
  | .object members => by
    rw [Json.shown]
    refine oneLine_append.mpr ⟨oneLine_append.mpr ⟨by decide, ?_⟩, by decide⟩
    exact oneLine_join (by decide) (oneLine_shownMembers members)

theorem oneLine_shownItems : ∀ items : List Json, ∀ part ∈ Json.shownItems items, OneLine part
  | [] => by simp [Json.shownItems]
  | x :: items => by
    rw [Json.shownItems, List.forall_mem_cons]
    exact ⟨oneLine_shown x, oneLine_shownItems items⟩

theorem oneLine_shownMembers :
    ∀ members : List (String × Json), ∀ part ∈ Json.shownMembers members, OneLine part
  | [] => by simp [Json.shownMembers]
  | (name, x) :: members => by
    rw [Json.shownMembers, List.forall_mem_cons]
    refine ⟨?_, oneLine_shownMembers members⟩
    exact oneLine_append.mpr ⟨oneLine_append.mpr ⟨oneLine_quoted name, by decide⟩, oneLine_shown x⟩

end

/-- What a marker gives as a path is broken into lines only if it is a text that is. -/
theorem oneLine_asText (x : Json) : OneLine x.asText ↔ ∀ s, x = .text s → OneLine s := by
  cases x with
  | text s => simp [Json.asText]
  | null | bool _ | int _ | float _ | list _ | object _ =>
    exact iff_of_true (oneLine_shown _) nofun

/-- The characters that the path of an accessor is made of fit on a line. -/
def PathFits (m : DeclaredMember) : Prop :=
  if Text.trim m.explicitPath = "" then OneLine m.name
  else ∀ s, m.markerArgs.head? = some (.text s) → OneLine s

theorem oneLine_nodePath_iff (m : DeclaredMember) : OneLine m.nodePath ↔ PathFits m := by
  rw [DeclaredMember.nodePath, PathFits]
  by_cases hblank : Text.trim m.explicitPath = ""
  · rw [if_pos hblank, if_pos (beq_iff_eq.mpr hblank), oneLine_append]
    exact and_iff_right (by decide)
  · rw [if_neg hblank, if_neg (mt beq_iff_eq.mp hblank), DeclaredMember.explicitPath]
    cases m.markerArgs.head? with
    | none => exact iff_of_true (by decide) nofun
    | some x =>
      rw [Option.map_some, Option.getD_some, oneLine_asText]
      simp

end SceneCodegen.Fragment
