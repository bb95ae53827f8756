import Mathlib.Data.PFun
import SceneCodegen.Proofs.Text.Cutting
import SceneCodegen.Scene.Header

/-!
# Readers by position

The readers of a header's values once more, as loops over positions in a text: over a quoted
text, over a raw value with a bracketed group in it, over spaces. Nothing settles beforehand
that a loop ends, and a look at a position outside the text is a fault. Whatever the text and
wherever a loop begins, every turn of it goes further on, no fault arises, and it ends where the
reader has left off.
-/
namespace SceneCodegen.Scene

/-- A position outside a text was looked at. -/
structure Outside where
  position : Nat
  deriving DecidableEq, Repr

/-- What loops come to: nothing, if they go on forever, a fault, or a result. -/
abbrev Loop (α : Type) := ExceptT Outside Part α

/-- One turn of a loop leads to another at another position, or to the end of the loop. -/
inductive Turn (σ α : Type)
  | again (state : σ) (next : Nat)
  | done (result : α)

/-- The end of a loop, be it a fault or a result, or where it goes on. -/
def Turn.outcome {σ α : Type} : Except Outside (Turn σ α) → Except Outside α ⊕ (σ × Nat)
  | .error e => .inl (.error e)
  | .ok (.done a) => .inl (.ok a)
  | .ok (.again state j) => .inr (state, j)

/-- Takes turns from a state and a position until one is the last. -/
def repeated {σ α : Type} (turn : σ → Nat → Loop (Turn σ α)) (state : σ) (i : Nat) : Loop α :=
  .mk (PFun.fix (fun p => (turn p.1 p.2).run.map Turn.outcome) (state, i))

section
variable {σ α : Type} {turn : σ → Nat → Loop (Turn σ α)} {state state' : σ} {i j : Nat} {a : α}

theorem repeated_eq (turn : σ → Nat → Loop (Turn σ α)) (state : σ) (i : Nat) :
    repeated turn state i = do
      match ← turn state i with
      | .again state' j => repeated turn state' j
      | .done a => return a := by
  refine Part.ext fun b => PFun.mem_fix_iff.trans (.trans ?_ Part.mem_bind_iff.symm)
  simp only [Part.mem_map_iff]
  constructor
  · rintro (⟨t, ht, h⟩ | ⟨p, ⟨t, ht, h⟩, hb⟩)
    · refine ⟨t, ht, ?_⟩
      rcases t with e | (⟨state', j⟩ | a) <;> cases h <;> exact Part.mem_some _
    · refine ⟨t, ht, ?_⟩
      rcases t with e | (⟨state', j⟩ | a) <;> cases h
      exact hb
  · rintro ⟨e | (⟨state', j⟩ | a), ht, hb⟩
    · exact .inl ⟨_, ht, by rw [Part.mem_some_iff.mp hb]; rfl⟩
    · exact .inr ⟨(state', j), ⟨_, ht, rfl⟩, hb⟩
    · exact .inl ⟨_, ht, by rw [Part.mem_some_iff.mp hb]; rfl⟩

theorem repeated_again (h : turn state i = pure (.again state' j)) :
    repeated turn state i = repeated turn state' j := by
  rw [repeated_eq, h, pure_bind]

theorem repeated_done (h : turn state i = pure (.done a)) : repeated turn state i = pure a := by
  rw [repeated_eq, h, pure_bind]

/-- Every turn comes to something without a fault, and one that is not the last begins inside the
text and goes further on in it. -/
def Advances (text : List Char) (turn : σ → Nat → Loop (Turn σ α)) : Prop :=
  ∀ state i, ∃ t, turn state i = pure t ∧
    ∀ state' j, t = .again state' j → i < text.length ∧ i < j

/-- A loop whose turns advance ends. -/
theorem Advances.ends {text : List Char} (h : Advances text turn) (state : σ) (i : Nat) :
    ∃ a, repeated turn state i = pure a := by
  obtain ⟨t, ht, hnext⟩ := h state i
  cases t with
  | done a => exact ⟨a, repeated_done ht⟩
  | again state' j =>
    obtain ⟨hi, hj⟩ := hnext state' j rfl
    obtain ⟨a, ha⟩ := Advances.ends h state' j
    exact ⟨a, (repeated_again ht).trans ha⟩
termination_by text.length - i

end

def look (text : List Char) (i : Nat) : Loop Char :=
  match text[i]? with
  | some c => pure c
  | none => throw ⟨i⟩

/-- The part of a text between two positions. -/
def slice (text : List Char) (start stop : Nat) : List Char := (text.drop start).take (stop - start)

section
variable {text cs : List Char} {i j k : Nat} {c : Char} {rest left : List Char}

theorem lt_length_of_drop (h : text.drop i = c :: rest) : i < text.length := by
  by_contra hi
  rw [List.drop_eq_nil_of_le (Nat.le_of_not_lt hi)] at h
  cases h

theorem le_length_of_drop_nil (h : text.drop i = []) : ¬ i < text.length :=
  Nat.not_lt.mpr (List.drop_eq_nil_iff.mp h)

theorem look_of_drop (h : text.drop i = c :: rest) : look text i = pure c := by
  have hget : text[i]? = some c := by
    rw [← List.head?_drop, h, List.head?_cons]
  rw [look, hget]

/-- A turn that looks at the character it stands on, if there is one. -/
theorem ite_look_cons {α : Type} {f : Char → Loop α} {otherwise : Loop α}
    (h : text.drop i = c :: rest) :
    (if i < text.length then look text i >>= f else otherwise) = f c := by
  rw [if_pos (lt_length_of_drop h), look_of_drop h, pure_bind]

theorem drop_succ_of_drop (h : text.drop i = c :: rest) : text.drop (i + 1) = rest := by
  rw [← List.drop_drop, h, List.drop_one, List.tail_cons]

/-- A reader begun at `i` came to `j`, with a given text left. It may stand one past the end, behind
what a backslash at the end would have stood before. -/
structure ReadsTo (text : List Char) (i j : Nat) (left : List Char) : Prop where
  le : i ≤ j
  le_length : j ≤ text.length + 1
  drop_eq : text.drop j = left

theorem ReadsTo.of_le (h : ReadsTo text j k left) (hij : i ≤ j) : ReadsTo text i k left :=
  { h with le := Nat.le_trans hij h.le }

theorem ReadsTo.here (h : text.drop i = left) (hi : i ≤ text.length + 1) : ReadsTo text i i left :=
  ⟨Nat.le_refl i, hi, h⟩

theorem ReadsTo.next (h : text.drop i = c :: rest) : ReadsTo text i (i + 1) rest :=
  ⟨Nat.le_succ i, by have := lt_length_of_drop h; omega, drop_succ_of_drop h⟩

/-- A loop that was begun at `i` ends, with a given text left behind the position it comes to. -/
def ComesTo (loop : Loop Nat) (text : List Char) (i : Nat) (left : List Char) : Prop :=
  ∃ j, loop = pure j ∧ ReadsTo text i j left

theorem ComesTo.of_again {σ : Type} {turn : σ → Nat → Loop (Turn σ Nat)} {state state' : σ}
    (hturn : turn state i = pure (.again state' j)) (hij : i ≤ j)
    (h : ComesTo (repeated turn state' j) text j left) :
    ComesTo (repeated turn state i) text i left := by
  obtain ⟨k, hk, hreads⟩ := h
  exact ⟨k, (repeated_again hturn).trans hk, hreads.of_le hij⟩

/-- What was read stands between where a reader began and where it came to. -/
theorem ReadsTo.slice_eq {front : List Char} (h : ReadsTo text i j left)
    (hi : text.drop i = front ++ left) : slice text i j = front := by
  obtain ⟨n, rfl⟩ := Nat.exists_eq_add_of_le h.le
  have hleft : (front ++ left).drop n = left := by
    rw [← hi, List.drop_drop, h.drop_eq]
  have hlength := congrArg List.length hleft
  rw [List.length_drop, List.length_append] at hlength
  rw [slice, hi, Nat.add_sub_cancel_left]
  cases left with
  | nil =>
    rw [List.append_nil]
    exact List.take_of_length_le (by simpa [Nat.sub_eq_zero_iff_le] using hlength)
  | cons d ds =>
    rw [List.length_cons] at hlength
    exact List.take_left' (by omega)

/-- The state is the quoted text as far as it was read. -/
def quotedTurn (text : List Char) (inner : List Char) (i : Nat) :
    Loop (Turn (List Char) (List Char × Nat)) := do
  if i < text.length then
    let c ← look text i
    if c == '\\' && i + 1 < text.length then
      let next ← look text (i + 1)
      return .again (inner ++ [next]) (i + 2)
    else if c == '"' then return .done (inner, i + 1)
    else return .again (inner ++ [c]) (i + 1)
  else return .done (inner, i)

theorem quotedTurn_nil (inner : List Char) (h : text.drop i = []) :
    quotedTurn text inner i = pure (.done (inner, i)) := by
  rw [quotedTurn, if_neg (le_length_of_drop_nil h)]

theorem quotedTurn_escape (inner : List Char) (h : text.drop i = '\\' :: c :: rest) :
    quotedTurn text inner i = pure (.again (inner ++ [c]) (i + 2)) := by
  have hnext := drop_succ_of_drop h
  rw [quotedTurn, ite_look_cons h, if_pos, look_of_drop hnext, pure_bind]
  rw [beq_self_eq_true, Bool.true_and, decide_eq_true_iff]
  exact lt_length_of_drop hnext

theorem quotedTurn_char (inner : List Char) (h : text.drop i = c :: rest)
    (hslash : ∀ c' rest', c = '\\' → rest = c' :: rest' → False) :
    quotedTurn text inner i =
      pure (if c == '"' then .done (inner, i + 1) else .again (inner ++ [c]) (i + 1)) := by
  have hno : (c == '\\' && decide (i + 1 < text.length)) = false := by
    by_contra hyes
    rw [Bool.not_eq_false, Bool.and_eq_true, decide_eq_true_iff] at hyes
    obtain ⟨c', rest', hrest⟩ : ∃ c' rest', rest = c' :: rest' := by
      rw [← drop_succ_of_drop h]
      exact ⟨_, _, List.drop_eq_getElem_cons hyes.2⟩
    exact hslash c' rest' (eq_of_beq hyes.1) hrest
  rw [quotedTurn, ite_look_cons h, if_neg (Bool.eq_false_iff.mp hno), apply_ite pure]

theorem repeated_quotedTurn (h : text.drop i = cs) (hi : i ≤ text.length + 1) (inner : List Char) :
    ∃ j, repeated (quotedTurn text) inner i = pure (inner ++ (readQuoted cs).1, j) ∧
      ReadsTo text i j (readQuoted cs).2 := by
  fun_induction readQuoted cs generalizing i inner with
  | case1 =>
    rw [List.append_nil]
    exact ⟨i, repeated_done (quotedTurn_nil inner h), .here h hi⟩
  | case2 c rest read after heq ih =>
    have hnext := ReadsTo.next (drop_succ_of_drop h)
    obtain ⟨j, hj, hreads⟩ := ih hnext.drop_eq hnext.le_length (inner ++ [c])
    rw [heq, List.append_assoc] at hj
    rw [heq] at hreads
    have hturn := repeated_again (quotedTurn_escape inner h)
    exact ⟨j, hturn.trans hj, hreads.of_le (Nat.le_add_right i 2)⟩
  | case3 c rest hslash hquote =>
    rw [List.append_nil]
    exact ⟨i + 1, repeated_done (by rw [quotedTurn_char inner h hslash, if_pos hquote]), .next h⟩
  | case4 c rest hslash hquote read after heq ih =>
    have hnext := ReadsTo.next h
    obtain ⟨j, hj, hreads⟩ := ih hnext.drop_eq hnext.le_length (inner ++ [c])
    rw [heq, List.append_assoc] at hj
    rw [heq] at hreads
    have hturn := repeated_again ((quotedTurn_char inner h hslash).trans (by rw [if_neg hquote]))
    exact ⟨j, hturn.trans hj, hreads.of_le hnext.le⟩

theorem quotedTurn_advances (text : List Char) : Advances text (quotedTurn text) := by
  intro inner i
  cases h : text.drop i with
  | nil => exact ⟨_, quotedTurn_nil inner h, nofun⟩
  | cons c rest =>
    have hlt := lt_length_of_drop h
    by_cases hescape : ∃ c' rest', c = '\\' ∧ rest = c' :: rest'
    · obtain ⟨c', rest', rfl, rfl⟩ := hescape
      refine ⟨_, quotedTurn_escape inner h, fun inner' j hj => ?_⟩
      cases hj
      exact ⟨hlt, by omega⟩
    · refine ⟨_, quotedTurn_char inner h fun c' rest' hc hrest => ?_, ?_⟩
      · exact hescape ⟨c', rest', hc, hrest⟩
      intro inner' j hj
      split at hj <;> cases hj
      exact ⟨hlt, Nat.lt_succ_self i⟩

theorem readQuoted_taken (cs : List Char) :
    ∃ front, cs = front ++ (readQuoted cs).2 ∧ readQuoted front = ((readQuoted cs).1, []) := by
  fun_induction readQuoted cs with
  | case1 => exact ⟨[], rfl, rfl⟩
  | case2 c rest read after heq ih =>
    obtain ⟨front, hfront, halone⟩ := ih
    rw [heq] at hfront halone
    refine ⟨'\\' :: c :: front, by rw [hfront]; rfl, ?_⟩
    rw [readQuoted, halone]
  | case3 c rest hslash hquote =>
    refine ⟨[c], rfl, ?_⟩
    rw [eq_of_beq hquote]
    rfl
  | case4 c rest hslash hquote read after heq ih =>
    obtain ⟨front, hfront, halone⟩ := ih
    rw [heq] at hfront halone
    refine ⟨c :: front, by rw [hfront]; rfl, ?_⟩
    rw [readQuoted.eq_3 c front fun c' front' hc hrest => ?_, if_neg hquote, halone]
    -- a backslash at the end of the text is one at the end of what was taken
    exact hslash c' (front' ++ after) hc (by rw [hfront, hrest]; rfl)

/-- A turn on a character of a group. The state is the brackets still to be closed, the innermost
first, and whether a quote is open. What a backslash stands before is not looked at, be it there or
not. -/
def groupStep (state : List Char × Bool) (c : Char) (i : Nat) : Turn (List Char × Bool) Nat :=
  match state with
  | (closers, true) =>
    if c == '\\' then .again (closers, true) (i + 2) else .again (closers, c != '"') (i + 1)
  | (closers, false) =>
    if c == '"' then .again (closers, true) (i + 1)
    else match closingOf c, closers with
      | some closer, _ => .again (closer :: closers, false) (i + 1)
      | none, [] => .again ([], false) (i + 1)
      | none, closer :: outer =>
        if c != closer then .again (closers, false) (i + 1)
        else if outer.isEmpty then .done (i + 1)
        else .again (outer, false) (i + 1)

def groupTurn (text : List Char) (state : List Char × Bool) (i : Nat) :
    Loop (Turn (List Char × Bool) Nat) := do
  if i < text.length then return groupStep state (← look text i) i else return .done i

variable {closers : List Char} {inQuote : Bool}

theorem groupTurn_nil (h : text.drop i = []) :
    groupTurn text (closers, inQuote) i = pure (.done i) := by
  simp only [groupTurn, if_neg (le_length_of_drop_nil h)]

theorem groupTurn_cons (h : text.drop i = c :: rest) (state : List Char × Bool) :
    groupTurn text state i = pure (groupStep state c i) := by
  rw [groupTurn, ite_look_cons h]

theorem groupStep_advances {state state' : List Char × Bool}
    (h : groupStep state c i = .again state' j) : i < j := by
  rw [groupStep.eq_def] at h
  repeat' split at h
  all_goals cases h
  all_goals omega

theorem groupTurn_advances (text : List Char) : Advances text (groupTurn text) := by
  intro state i
  cases h : text.drop i with
  | nil => exact ⟨_, groupTurn_nil h, nofun⟩
  | cons c rest =>
    refine ⟨_, groupTurn_cons h state, fun _ _ hstep => ?_⟩
    exact ⟨lt_length_of_drop h, groupStep_advances hstep⟩

theorem repeated_groupTurn (hne : closers ≠ []) (h : text.drop i = cs) (hi : i ≤ text.length + 1) :
    ComesTo (repeated (groupTurn text) (closers, inQuote) i) text i
      (readGroup closers inQuote cs).2 := by
  fun_induction readGroup closers inQuote cs generalizing i with
  | case1 closers inQuote => exact ⟨i, repeated_done (groupTurn_nil h), .here h hi⟩
  | case2 closers c rest group after heq ih =>
    rw [heq] at ih
    have hnext := ReadsTo.next (drop_succ_of_drop h)
    exact .of_again (groupTurn_cons h _) (Nat.le_add_right i 2)
      (ih hne hnext.drop_eq hnext.le_length)
  | case3 closers c rest hslash group after heq ih =>
    have hturn := groupTurn_cons h (closers, true)
    by_cases hc : c = '\\'
    · -- the turn goes past the end, and nothing is left there
      subst hc
      obtain rfl : rest = [] := by
        cases rest with
        | nil => rfl
        | cons d ds => exact (hslash d ds rfl rfl).elim
      cases heq
      have hpast : text.drop (i + 2) = [] := by
        rw [← List.drop_drop, h]
        rfl
      have hlt := lt_length_of_drop h
      exact .of_again hturn (Nat.le_add_right i 2)
        ⟨i + 2, repeated_done (groupTurn_nil hpast), .here hpast (by omega)⟩
    · rw [heq] at ih
      have hnext := ReadsTo.next h
      refine .of_again (hturn.trans ?_) hnext.le (ih hne hnext.drop_eq hnext.le_length)
      simp only [groupStep, beq_iff_eq, if_neg hc]
  | case4 closers c rest hquote group after heq ih =>
    rw [heq] at ih
    have hnext := ReadsTo.next h
    refine .of_again ((groupTurn_cons h _).trans ?_) hnext.le
      (ih hne hnext.drop_eq hnext.le_length)
    simp only [groupStep, if_pos hquote]
  | case5 closers c rest hquote closer hopen group after heq ih =>
    have hnext := ReadsTo.next h
    refine .of_again ((groupTurn_cons h _).trans ?_) hnext.le
      (ih (List.cons_ne_nil _ _) hnext.drop_eq hnext.le_length)
    simp only [groupStep, if_neg hquote, hopen]
  | case6 => exact absurd rfl hne
  | case7 c rest hquote closer outer hopen hother group after heq ih =>
    have hnext := ReadsTo.next h
    refine .of_again ((groupTurn_cons h _).trans ?_) hnext.le
      (ih hne hnext.drop_eq hnext.le_length)
    simp only [groupStep, if_neg hquote, hopen, if_pos hother]
  | case8 c rest hquote closer outer hopen hcloser hlast =>
    refine ⟨i + 1, repeated_done ((groupTurn_cons h _).trans ?_), .next h⟩
    simp only [groupStep, if_neg hquote, hopen, if_neg hcloser, if_pos hlast]
  | case9 c rest hquote closer outer hopen hcloser houter group after heq ih =>
    rw [heq] at ih
    have hnext := ReadsTo.next h
    have hne' : outer ≠ [] := fun h => houter (by rw [h]; rfl)
    refine .of_again ((groupTurn_cons h _).trans ?_) hnext.le
      (ih hne' hnext.drop_eq hnext.le_length)
    simp only [groupStep, if_neg hquote, hopen, if_neg hcloser, if_neg houter]

/-- A group is read from what it takes, whatever comes behind it; a group left open takes all. -/
theorem readGroup_taken {closers : List Char} (hne : closers ≠ []) (inQuote : Bool) (cs : List Char)
    {tail : List Char} (htail : (readGroup closers inQuote cs).2 = [] → tail = []) :
    readGroup closers inQuote ((readGroup closers inQuote cs).1 ++ tail) =
      ((readGroup closers inQuote cs).1, tail) := by
  fun_induction readGroup closers inQuote cs with
  | case1 closers inQuote =>
    rw [htail rfl]
    rfl
  | case2 closers c rest group after heq ih =>
    rw [heq] at ih
    simp only [List.cons_append, readGroup, ih hne htail]
  | case3 closers c rest hslash group after heq ih =>
    rw [heq] at ih
    by_cases hc : c = '\\'
    · -- nothing follows the backslash, so nothing is left
      subst hc
      obtain rfl : rest = [] := by
        cases rest with
        | nil => rfl
        | cons d ds => exact (hslash d ds rfl rfl).elim
      cases heq
      rw [htail rfl]
      rfl
    · rw [List.cons_append, readGroup.eq_def]
      simp [hc, ih hne htail]
  | case4 closers c rest hquote group after heq ih =>
    rw [heq] at ih
    rw [List.cons_append, readGroup.eq_def]
    simp only [if_pos hquote, ih hne htail]
  | case5 closers c rest hquote closer hopen group after heq ih =>
    rw [heq] at ih htail
    rw [List.cons_append, readGroup.eq_def, heq]
    simp only [if_neg hquote, hopen, ih (List.cons_ne_nil _ _) htail]
  | case6 => exact absurd rfl hne
  | case7 c rest hquote closer outer hopen hother group after heq ih =>
    rw [heq] at ih htail
    rw [List.cons_append, readGroup.eq_def, heq]
    simp only [if_neg hquote, hopen, if_pos hother, ih hne htail]
  | case8 c rest hquote closer outer hopen hcloser hlast =>
    rw [List.cons_append, readGroup.eq_def]
    simp only [if_neg hquote, hopen, if_neg hcloser, if_pos hlast, List.nil_append]
  | case9 c rest hquote closer outer hopen hcloser houter group after heq ih =>
    rw [heq] at ih
    have hne' : outer ≠ [] := fun h => houter (by rw [h]; rfl)
    rw [List.cons_append, readGroup.eq_def]
    simp only [if_neg hquote, hopen, if_neg hcloser, if_neg houter, ih hne' htail]

theorem readGroup_append (closers : List Char) (inQuote : Bool) (cs : List Char) :
    (readGroup closers inQuote cs).1 ++ (readGroup closers inQuote cs).2 = cs := by
  fun_induction readGroup closers inQuote cs <;> simp_all

def rawTurn (text : List Char) (_ : Unit) (i : Nat) : Loop (Turn Unit Nat) := do
  if i < text.length then
    let c ← look text i
    if Text.isBlank c then return .done i
    else if (closingOf c).isSome then
      let stop ← repeated (groupTurn text) ([], false) i
      return .again () stop
    else return .again () (i + 1)
  else return .done i

theorem rawTurn_nil (h : text.drop i = []) : rawTurn text () i = pure (.done i) := by
  rw [rawTurn, if_neg (le_length_of_drop_nil h)]

theorem rawTurn_blank (h : text.drop i = c :: rest) (hblank : Text.isBlank c = true) :
    rawTurn text () i = pure (.done i) := by
  rw [rawTurn, ite_look_cons h, if_pos hblank]

theorem rawTurn_char (h : text.drop i = c :: rest) (hblank : ¬ Text.isBlank c = true)
    (hopen : closingOf c = none) : rawTurn text () i = pure (.again () (i + 1)) := by
  rw [rawTurn, ite_look_cons h, if_neg hblank, hopen, Option.isSome_none, if_neg Bool.false_ne_true]

/-- A turn that meets an opening bracket goes on behind its group. -/
theorem rawTurn_group {closer : Char} (h : text.drop i = c :: rest)
    (hblank : ¬ Text.isBlank c = true) (hopen : closingOf c = some closer) :
    ∃ j, rawTurn text () i = pure (.again () j) ∧
      ReadsTo text (i + 1) j (readGroup [closer] false rest).2 := by
  have hnext := ReadsTo.next h
  obtain ⟨j, hj, hreads⟩ : ComesTo (repeated (groupTurn text) ([closer], false) (i + 1)) text
      (i + 1) (readGroup [closer] false rest).2 :=
    repeated_groupTurn (List.cons_ne_nil closer []) hnext.drop_eq hnext.le_length
  have hquote : ¬ (c == '"') = true := by
    rw [beq_iff_eq]
    rintro rfl
    cases hopen
  have hfirst : repeated (groupTurn text) ([], false) i = pure j := by
    refine (repeated_again ((groupTurn_cons h _).trans ?_)).trans hj
    simp only [groupStep, if_neg hquote, hopen]
  refine ⟨j, ?_, hreads⟩
  rw [rawTurn, ite_look_cons h, if_neg hblank, hopen, Option.isSome_some, if_pos rfl, hfirst,
    pure_bind]

theorem rawTurn_advances (text : List Char) : Advances text (rawTurn text) := by
  intro _ i
  cases h : text.drop i with
  | nil => exact ⟨_, rawTurn_nil h, nofun⟩
  | cons c rest =>
    by_cases hblank : Text.isBlank c = true
    · exact ⟨_, rawTurn_blank h hblank, nofun⟩
    have hlt := lt_length_of_drop h
    cases hopen : closingOf c with
    | none =>
      refine ⟨_, rawTurn_char h hblank hopen, fun _ j hj => ?_⟩
      cases hj
      exact ⟨hlt, Nat.lt_succ_self i⟩
    | some closer =>
      obtain ⟨k, hk, hreads⟩ := rawTurn_group h hblank hopen
      refine ⟨_, hk, fun _ j hj => ?_⟩
      cases hj
      exact ⟨hlt, hreads.le⟩

theorem repeated_rawTurn (h : text.drop i = cs) (hi : i ≤ text.length + 1) :
    ComesTo (repeated (rawTurn text) () i) text i (readRaw cs).2 := by
  fun_induction readRaw cs generalizing i with
  | case1 => exact ⟨i, repeated_done (rawTurn_nil h), .here h hi⟩
  | case2 c rest hblank => exact ⟨i, repeated_done (rawTurn_blank h hblank), .here h hi⟩
  | case3 c rest hblank closer hopen group raw after heq =>
    rename_i ih
    rw [heq] at ih
    obtain ⟨j, hj, hreads⟩ := rawTurn_group h hblank hopen
    exact .of_again hj (Nat.le_of_succ_le hreads.le) (ih hreads.drop_eq hreads.le_length)
  | case4 c rest hblank hopen raw after heq ih =>
    rw [heq] at ih
    have hnext := ReadsTo.next h
    exact .of_again (rawTurn_char h hblank hopen) hnext.le (ih hnext.drop_eq hnext.le_length)

theorem readRaw_append (cs : List Char) : (readRaw cs).1 ++ (readRaw cs).2 = cs := by
  fun_induction readRaw cs with
  | case1 => rfl
  | case2 => rfl
  | case3 c rest hblank closer hopen group raw after heq ih =>
    rw [heq] at ih
    rw [List.cons_append, List.cons_append, List.append_assoc, ih]
    exact congrArg (c :: ·) (readGroup_append [closer] false rest)
  | case4 c rest hblank hopen raw after heq ih =>
    rw [heq] at ih
    rw [List.cons_append, ih]

theorem readRaw_taken (cs : List Char) : readRaw (readRaw cs).1 = ((readRaw cs).1, []) := by
  fun_induction readRaw cs with
  | case1 => rw [readRaw.eq_def]
  | case2 => rw [readRaw.eq_def]
  | case3 c rest hblank closer hopen group raw after heq ih =>
    have hraw : raw ++ after = group.2 := by
      have happend := readRaw_append group.2
      rwa [heq] at happend
    have hgroup : readGroup [closer] false (group.1 ++ raw) = (group.1, raw) :=
      readGroup_taken (List.cons_ne_nil _ _) false rest fun hnil =>
        (List.append_eq_nil_iff.mp (hraw.trans hnil)).1
    rw [heq] at ih
    rw [List.cons_append, readRaw.eq_def]
    simp only [if_neg hblank, hopen, hgroup, ih, List.cons_append]
  | case4 c rest hblank hopen raw after heq ih =>
    rw [heq] at ih
    rw [readRaw.eq_def]
    simp only [if_neg hblank, hopen, ih]

def spacesTurn (text : List Char) (_ : Unit) (i : Nat) : Loop (Turn Unit Nat) := do
  if i < text.length then
    let c ← look text i
    if c == ' ' then return .again () (i + 1) else return .done i
  else return .done i

theorem spacesTurn_nil (h : text.drop i = []) : spacesTurn text () i = pure (.done i) := by
  rw [spacesTurn, if_neg (le_length_of_drop_nil h)]

theorem spacesTurn_cons (h : text.drop i = c :: rest) :
    spacesTurn text () i = pure (if c == ' ' then .again () (i + 1) else .done i) := by
  rw [spacesTurn, ite_look_cons h, apply_ite pure]

theorem spacesTurn_advances (text : List Char) : Advances text (spacesTurn text) := by
  intro _ i
  cases h : text.drop i with
  | nil => exact ⟨_, spacesTurn_nil h, nofun⟩
  | cons c rest =>
    refine ⟨_, spacesTurn_cons h, fun _ j hj => ?_⟩
    split at hj <;> cases hj
    exact ⟨lt_length_of_drop h, Nat.lt_succ_self i⟩

theorem repeated_spacesTurn (h : text.drop i = cs) (hi : i ≤ text.length + 1) :
    ComesTo (repeated (spacesTurn text) () i) text i (cs.dropWhile (· == ' ')) := by
  induction cs generalizing i with
  | nil => exact ⟨i, repeated_done (spacesTurn_nil h), .here h hi⟩
  | cons c rest ih =>
    have hturn := spacesTurn_cons h
    have hnext := ReadsTo.next h
    by_cases hspace : (c == ' ') = true
    · rw [List.dropWhile_cons, if_pos hspace]
      exact .of_again (hturn.trans (by rw [if_pos hspace])) hnext.le
        (ih hnext.drop_eq hnext.le_length)
    · rw [List.dropWhile_cons, if_neg hspace]
      exact ⟨i, repeated_done (hturn.trans (by rw [if_neg hspace])), .here h hi⟩

/-- The value that begins at a position, and the position behind it. -/
def valueAt (text : List Char) (start : Nat) : Loop (List Char × Nat) := do
  if start < text.length then
    let c ← look text start
    if c == '"' then repeated (quotedTurn text) [] (start + 1)
    else
      let stop ← repeated (rawTurn text) () start
      return (slice text start stop, stop)
  else return ([], start)

theorem valueAt_eq (h : text.drop i = cs) (hi : i ≤ text.length + 1) :
    ∃ j, valueAt text i = pure ((readValue cs).1, j) ∧ ReadsTo text i j (readValue cs).2 := by
  fun_cases readValue cs with
  | case1 rest =>
    have hnext := ReadsTo.next h
    obtain ⟨j, hj, hreads⟩ := repeated_quotedTurn hnext.drop_eq hnext.le_length []
    refine ⟨j, ?_, hreads.of_le hnext.le⟩
    rw [valueAt, ite_look_cons h, if_pos (beq_self_eq_true '"'), hj, List.nil_append]
  | case2 cs hquote =>
    obtain ⟨j, hj, hreads⟩ := repeated_rawTurn h hi
    have hslice := hreads.slice_eq (h.trans (readRaw_append cs).symm)
    cases cs with
    | nil =>
      have hnil : readRaw [] = ([], []) := by rw [readRaw.eq_def]
      rw [hnil]
      exact ⟨i, by rw [valueAt, if_neg (le_length_of_drop_nil h)], .here h hi⟩
    | cons c rest =>
      refine ⟨j, ?_, hreads⟩
      have hc : ¬ (c == '"') = true := fun hc => hquote rest (by rw [eq_of_beq hc])
      rw [valueAt, ite_look_cons h, if_neg hc, hj, pure_bind, hslice]

/-- A value is read from the front it takes off a text as it is read from the text. -/
theorem readValue_taken (cs : List Char) :
    ∃ front, cs = front ++ (readValue cs).2 ∧ readValue front = ((readValue cs).1, []) := by
  fun_cases readValue cs with
  | case1 rest =>
    obtain ⟨front, hfront, halone⟩ := readQuoted_taken rest
    exact ⟨'"' :: front, by rw [List.cons_append, ← hfront], by rw [readValue, halone]⟩
  | case2 cs hquote =>
    refine ⟨(readRaw cs).1, (readRaw_append cs).symm, ?_⟩
    rw [readValue.eq_2 _ fun rest hrest => ?_, readRaw_taken]
    refine hquote (rest ++ (readRaw cs).2) ?_
    conv_lhs => rw [← readRaw_append cs, hrest]
    rfl

end

end SceneCodegen.Scene
