import Mathlib.Data.List.DropRight
import Mathlib.Data.List.TakeWhile
import SceneCodegen.Text.Blank
import SceneCodegen.Text.Lines
import SceneCodegen.Text.Search

/-!
# Trimming and cutting

What trimming leaves of a text whose ends are known, and what cutting a text at a separator or at
its line breaks gives back of the parts it was joined from.
-/
namespace SceneCodegen.Text

theorem dropWhile_of_head {α : Type} {p : α → Bool} {l : List α}
    (h : ∀ a, l.head? = some a → p a = false) : l.dropWhile p = l := by
  cases l with
  | nil => rfl
  | cons a l => simp [h a rfl]

/-- What is dropped from the end of a list ends where an element is to be kept. -/
theorem dropEnd_append {α : Type} {p : α → Bool} {front : List α} {a : α}
    (hlast : front.getLast? = some a) (ha : p a = false) (tail : List α) :
    ((front ++ tail).reverse.dropWhile p).reverse =
      front ++ (tail.reverse.dropWhile p).reverse := by
  have hback : front.reverse.dropWhile p = front.reverse :=
    dropWhile_of_head fun b hb => by
      rw [List.head?_reverse, hlast, Option.some.injEq] at hb
      rw [← hb, ha]
  rw [List.reverse_append, List.dropWhile_append, hback]
  split
  · next h => simp [List.isEmpty_iff.mp h]
  · simp

/-- A text that begins and ends with characters to be kept keeps them, whatever follows it. -/
theorem trimBoth_append {p : Char → Bool} {front : List Char} (hne : front ≠ [])
    (hhead : ∀ c, front.head? = some c → p c = false)
    (hlast : ∀ c, front.getLast? = some c → p c = false) (tail : List Char) :
    trimBoth p (front ++ tail) = front ++ trimEndChars p tail := by
  have hfront : (front ++ tail).dropWhile p = front ++ tail :=
    dropWhile_of_head fun c hc => hhead c (by simpa [hne] using hc)
  have hend := List.getLast?_eq_some_getLast hne
  rw [trimBoth, hfront]
  exact dropEnd_append hend (hlast _ hend) tail

theorem trimBoth_of_ends {p : Char → Bool} {cs : List Char}
    (hhead : ∀ c, cs.head? = some c → p c = false)
    (hlast : ∀ c, cs.getLast? = some c → p c = false) : trimBoth p cs = cs := by
  by_cases hne : cs = []
  · subst hne; rfl
  · simpa [trimEndChars] using trimBoth_append hne hhead hlast []

theorem head_trimBoth {p : Char → Bool} {c : Char} (hc : p c = false) (cs : List Char) :
    (trimBoth p (c :: cs)).head? = some c := by
  have hfront : ([c] : List Char) ≠ [] := by simp
  have hcut := trimBoth_append hfront (by simpa using hc) (by simpa using hc) cs
  rw [List.singleton_append] at hcut
  rw [hcut]
  rfl

/-- Trimming keeps the first character that is not cut. -/
theorem head?_trimBoth (p : Char → Bool) (cs : List Char) :
    (trimBoth p cs).head? = (cs.dropWhile p).head? := by
  have hcut : trimBoth p cs = trimBoth p (cs.dropWhile p) := by
    rw [trimBoth, trimBoth, List.dropWhile_idempotent]
  rw [hcut]
  cases hrest : cs.dropWhile p with
  | nil => rfl
  | cons c rest =>
    have hc : p c = false := by
      have hne : cs.dropWhile p ≠ [] := by rw [hrest]; exact List.cons_ne_nil c rest
      simpa [hrest] using List.head_dropWhile_not p hne
    exact head_trimBoth hc rest

/-- Characters to be cut, at the end, are cut whatever their number. -/
theorem trimBoth_append_cut {p : Char → Bool} (cs : List Char) {tail : List Char}
    (htail : ∀ c ∈ tail, p c = true) : trimBoth p (cs ++ tail) = trimBoth p cs := by
  simp only [trimBoth, List.dropWhile_append]
  split
  · next h =>
    have hall : tail.dropWhile p = [] := List.dropWhile_eq_nil_iff.mpr htail
    rw [hall, List.isEmpty_iff.mp h]
  · rw [List.reverse_append, List.dropWhile_append_of_pos (by simpa using htail)]

/-- A text is cut at the separator after a part that holds none. -/
theorem cutAt_append {sep : Char} {cs : List Char} (h : sep ∉ cs) (rest : List Char) :
    cutAt sep (cs ++ sep :: rest) = some (cs, rest) := by
  have hkeep : ∀ c ∈ cs, (c != sep) = true := fun c hc =>
    bne_iff_ne.mpr fun heq => h (heq ▸ hc)
  rw [cutAt, List.dropWhile_append_of_pos hkeep, List.takeWhile_append_of_pos hkeep]
  simp

theorem cutAt_cons {sep c : Char} (hc : c ≠ sep) (cs : List Char) :
    cutAt sep (c :: cs) = (cutAt sep cs).map fun (before, after) => (c :: before, after) := by
  have hkeep : (c != sep) = true := bne_iff_ne.mpr hc
  simp only [cutAt, List.dropWhile_cons, List.takeWhile_cons, hkeep, if_true]
  cases cs.dropWhile (· != sep) <;> rfl

theorem fields_of_not_mem {sep : Char} {cs : List Char} (h : sep ∉ cs) : fields sep cs = [cs] := by
  induction cs with
  | nil => rfl
  | cons c cs ih =>
    obtain ⟨hc, hcs⟩ := not_or.mp (mt List.mem_cons.mpr h)
    simp [fields, Ne.symm hc, ih hcs]

theorem fields_append {sep : Char} {cs : List Char} (h : sep ∉ cs) (rest : List Char) :
    fields sep (cs ++ sep :: rest) = cs :: fields sep rest := by
  induction cs with
  | nil => simp [fields]
  | cons c cs ih =>
    obtain ⟨hc, hcs⟩ := not_or.mp (mt List.mem_cons.mpr h)
    simp [fields, Ne.symm hc, ih hcs]

/-- At a separator the parts before are cut from those after. -/
theorem fields_append_cons (sep : Char) (cs rest : List Char) :
    fields sep (cs ++ sep :: rest) = fields sep cs ++ fields sep rest := by
  induction cs with
  | nil => simp [fields]
  | cons c cs ih =>
    rw [List.cons_append, fields, ih, fields]
    split
    · rfl
    · obtain ⟨part, parts, hfields⟩ := List.exists_cons_of_ne_nil (fields_ne_nil sep cs)
      rw [hfields]
      rfl

/-- Parts without the separator come back from the text that joins them. -/
theorem fields_intercalate {sep : Char} {parts : List (List Char)} (hne : parts ≠ [])
    (h : ∀ part ∈ parts, sep ∉ part) : fields sep (List.intercalate [sep] parts) = parts := by
  induction parts with
  | nil => exact absurd rfl hne
  | cons part parts ih =>
    have hpart : sep ∉ part := h part (by simp)
    cases parts with
    | nil => rw [List.intercalate_singleton, fields_of_not_mem hpart]
    | cons next parts =>
      rw [List.intercalate_cons_cons, List.append_assoc, List.singleton_append, fields_append hpart,
        ih (by simp) fun p hp => h p (List.mem_cons_of_mem _ hp)]

/-- A text begins with a part that begins as the text does up to the separator. -/
theorem exists_fields_append {sep : Char} {cs : List Char} (h : sep ∉ cs) (rest : List Char) :
    ∃ part parts, fields sep (cs ++ rest) = (cs ++ part) :: parts := by
  induction cs with
  | nil => exact List.exists_cons_of_ne_nil (fields_ne_nil sep rest)
  | cons c cs ih =>
    obtain ⟨hc, hcs⟩ := not_or.mp (mt List.mem_cons.mpr h)
    obtain ⟨part, parts, hfields⟩ := ih hcs
    exact ⟨part, parts, by simp [fields, Ne.symm hc, hfields]⟩

theorem fields_flatMap {sep : Char} {parts : List (List Char)} (h : ∀ part ∈ parts, sep ∉ part)
    (rest : List Char) :
    fields sep ((parts.flatMap fun part => part ++ [sep]) ++ rest) = parts ++ fields sep rest := by
  induction parts with
  | nil => rfl
  | cons part parts ih =>
    rw [List.flatMap_cons, List.append_assoc, List.append_assoc, List.singleton_append,
      fields_append (h part List.mem_cons_self),
      ih fun p hp => h p (List.mem_cons_of_mem part hp), List.cons_append]

theorem mem_of_mem_fields {sep : Char} {cs part : List Char} (hpart : part ∈ fields sep cs)
    {c : Char} (hc : c ∈ part) : c ∈ cs := by
  induction cs generalizing part with
  | nil => simp_all [fields]
  | cons first cs ih =>
    rw [fields] at hpart
    split at hpart
    · obtain rfl | hpart := List.mem_cons.mp hpart
      · cases hc
      · exact List.mem_cons_of_mem first (ih hpart hc)
    · obtain ⟨next, parts, hfields⟩ := List.exists_cons_of_ne_nil (fields_ne_nil sep cs)
      rw [hfields] at hpart ih
      obtain rfl | hpart := List.mem_cons.mp hpart
      · rcases List.mem_cons.mp hc with rfl | hc
        · exact List.mem_cons_self
        · exact List.mem_cons_of_mem first (ih List.mem_cons_self hc)
      · exact List.mem_cons_of_mem first (ih (List.mem_cons_of_mem next hpart) hc)

theorem intercalate_append_cons (sep : List Char) (parts : List (List Char)) (part : List Char)
    (rest : List (List Char)) :
    List.intercalate sep (parts ++ part :: rest) =
      (parts.flatMap fun p => p ++ sep) ++ List.intercalate sep (part :: rest) := by
  induction parts with
  | nil => rfl
  | cons first parts ih =>
    have hne : parts ++ part :: rest ≠ [] := by simp
    rw [List.cons_append, List.intercalate_cons_of_ne_nil hne, ih, List.flatMap_cons]
    simp

theorem mem_of_mem_intercalate {sep : List Char} {parts : List (List Char)} {c : Char}
    (h : c ∈ List.intercalate sep parts) : c ∈ sep ∨ ∃ part ∈ parts, c ∈ part := by
  induction parts with
  | nil => cases h
  | cons part parts ih =>
    cases parts with
    | nil =>
      rw [List.intercalate_singleton] at h
      exact .inr ⟨part, List.mem_cons_self, h⟩
    | cons next parts =>
      rw [List.intercalate_cons_cons, List.mem_append, List.mem_append] at h
      rcases h with (h | h) | h
      · exact .inr ⟨part, List.mem_cons_self, h⟩
      · exact .inl h
      · obtain h | ⟨other, hother, h⟩ := ih h
        · exact .inl h
        · exact .inr ⟨other, List.mem_cons_of_mem part hother, h⟩

theorem mem_of_mem_join {sep : String} {parts : List String} {c : Char}
    (h : c ∈ (join sep parts).toList) : c ∈ sep.toList ∨ ∃ part ∈ parts, c ∈ part.toList := by
  rw [join, String.toList_intercalate] at h
  refine (mem_of_mem_intercalate h).imp id ?_
  rintro ⟨_, hchars, hc⟩
  obtain ⟨part, hpart, rfl⟩ := List.mem_map.mp hchars
  exact ⟨part, hpart, hc⟩

/-- A word between two separators is a part of the text, neither the first nor the last. -/
theorem infix_iff_fields {sep : Char} {word cs : List Char} (h : sep ∉ word) :
    sep :: word ++ [sep] <:+: cs ↔
      ∃ before after, before ≠ [] ∧ after ≠ [] ∧ fields sep cs = before ++ word :: after := by
  constructor
  · rintro ⟨front, back, rfl⟩
    refine ⟨fields sep front, fields sep back, fields_ne_nil sep front, fields_ne_nil sep back, ?_⟩
    rw [List.append_assoc, List.cons_append, List.cons_append, fields_append_cons,
      List.append_assoc, List.singleton_append, fields_append h]
  · rintro ⟨before, after, hbefore, hafter, hfields⟩
    have hcs := intercalate_fields sep cs
    rw [hfields, intercalate_append_cons, List.intercalate_cons_of_ne_nil hafter] at hcs
    obtain ⟨front, last, rfl⟩ := List.eq_nil_or_concat' before |>.resolve_left hbefore
    refine ⟨(front.flatMap fun part => part ++ [sep]) ++ last, List.intercalate [sep] after, ?_⟩
    rw [← hcs]
    simp

theorem find_isSome_iff {word cs : List Char} : (find word cs).isSome = true ↔ word <:+: cs := by
  induction cs with
  | nil =>
    rw [find, List.infix_nil]
    cases word <;> simp
  | cons c cs ih =>
    rw [find, List.infix_cons_iff]
    split
    · next h => simp [List.isPrefixOf_iff_prefix.mp h]
    · next h =>
      rw [Option.isSome_map, ih]
      exact ⟨.inr, fun hor => hor.resolve_left fun hpre => h (List.isPrefixOf_iff_prefix.mpr hpre)⟩

theorem intercalate_snoc (sep : List Char) {parts : List (List Char)} (hne : parts ≠ [])
    (part : List Char) :
    List.intercalate sep (parts ++ [part]) = List.intercalate sep parts ++ sep ++ part := by
  induction parts with
  | nil => exact absurd rfl hne
  | cons first parts ih =>
    cases parts with
    | nil => simp [List.intercalate_cons_cons]
    | cons next parts =>
      simpa [List.intercalate_cons_cons] using ih (by simp)

theorem lineChars_cons {c : Char} (hc : isLineBreak c = false) (rest : List Char) :
    lineChars (c :: rest) = consLine c (lineChars rest) := by
  have hne : c ≠ '\r' := by
    rintro rfl
    exact absurd hc (by decide)
  rw [lineChars.eq_3 c rest (fun _ h => absurd h hne), hc]
  rfl

theorem lineChars_append {cs : List Char} (h : cs.any isLineBreak = false) (rest : List Char) :
    lineChars (cs ++ '\n' :: rest) = cs :: lineChars rest := by
  induction cs with
  | nil => rfl
  | cons c cs ih =>
    rw [List.any_cons, Bool.or_eq_false_iff] at h
    rw [List.cons_append, lineChars_cons h.1, ih h.2]
    rfl

theorem lineChars_of_unbroken {cs : List Char} (hne : cs ≠ []) (h : cs.any isLineBreak = false) :
    lineChars cs = [cs] := by
  induction cs with
  | nil => exact absurd rfl hne
  | cons c cs ih =>
    rw [List.any_cons, Bool.or_eq_false_iff] at h
    rw [lineChars_cons h.1]
    cases cs with
    | nil => rfl
    | cons d cs =>
      rw [ih (List.cons_ne_nil _ _) h.2]
      rfl

/-- Lines that are joined with line feeds are told apart again, unless the last one is empty. -/
theorem lines_join {ls : List String} (h : ∀ l ∈ ls, l.toList.any isLineBreak = false)
    (hlast : ls.getLast? ≠ some "") : lines (join "\n" ls) = ls := by
  induction ls with
  | nil => rfl
  | cons l rest ih =>
    rw [List.forall_mem_cons] at h
    cases rest with
    | nil =>
      have hne : l.toList ≠ [] := by simpa using hlast
      rw [join, String.intercalate_singleton, lines, lineChars_of_unbroken hne h.1]
      simp
    | cons next rest =>
      have hrest := ih h.2 (by simpa using hlast)
      rw [lines, join] at hrest
      have hfeed : "\n".toList = ['\n'] := rfl
      rw [lines, join, String.intercalate_cons_cons, String.toList_append, String.toList_append,
        hfeed, List.append_assoc, List.singleton_append, lineChars_append h.1, List.map_cons, hrest,
        String.ofList_toList]

end SceneCodegen.Text
