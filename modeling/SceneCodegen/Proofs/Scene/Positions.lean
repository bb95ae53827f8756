import SceneCodegen.Proofs.Scene.Turns

/-!
# Headers by position

A header's pairs are read by a loop over positions, whose turns run the readers' loops and go on
where these come to. It reads the header of the line: whatever the line, no turn stands still and
none looks outside the text, and the pairs are cut from it one behind the other.
-/
namespace SceneCodegen.Scene

/-- A character of a text and the position of its first occurrence from a position on. -/
def positionFrom? (c : Char) (text : List Char) (i : Nat) : Option Nat :=
  ((text.drop i).findIdx? (· == c)).map (i + ·)

/-- A key and a value, and where they stand: the key from `start` to the equals sign, the value from
`value` to `stop`. -/
structure Cut where
  start : Nat
  equals : Nat
  value : Nat
  stop : Nat
  key : List Char
  text : List Char

/-- A key with a blank inside, or an empty one, makes no pair. -/
def Cut.pair? (c : Cut) : Option (String × String) :=
  if c.key.isEmpty || c.key.any Text.isBlank then none
  else some (String.ofList c.key, String.ofList c.text)

/-- One blank is passed over, or a key is read with its value. -/
def pairTurn (text : List Char) (cuts : List Cut) (i : Nat) :
    Loop (Turn (List Cut) (List Cut)) := do
  if i < text.length then
    let c ← look text i
    if Text.isBlank c then return .again cuts (i + 1)
    else match positionFrom? '=' text i with
      | none => return .done cuts
      | some equals =>
        let value ← repeated (spacesTurn text) () (equals + 1)
        let (read, stop) ← valueAt text value
        let key := Text.trimBoth Text.isBlank (slice text i equals)
        return .again (cuts ++ [⟨i, equals, value, stop, key, read⟩]) stop
  else return .done cuts

section
variable {text : List Char} {i j : Nat} {c : Char} {rest : List Char}

theorem dropWhile_of_positionFrom?_none (h : positionFrom? c text i = none) :
    (text.drop i).dropWhile (· != c) = [] := by
  rw [positionFrom?, Option.map_eq_none_iff, List.findIdx?_eq_none_iff] at h
  rw [List.dropWhile_eq_nil_iff]
  exact fun d hd => by rw [bne, h d hd]; rfl

theorem of_positionFrom? (h : positionFrom? c text i = some j) :
    ReadsTo text i j ((text.drop i).dropWhile (· != c)) ∧ ∃ rest, text.drop j = c :: rest := by
  rw [positionFrom?, Option.map_eq_some_iff] at h
  obtain ⟨n, hn, rfl⟩ := h
  rw [List.findIdx?_eq_some_iff_getElem] at hn
  obtain ⟨hlt, hc, hbefore⟩ := hn
  have hrest : text.drop (i + n) = c :: (text.drop i).drop (n + 1) := by
    rw [← List.drop_drop, List.drop_eq_getElem_cons hlt, eq_of_beq hc]
  have hfront : ∀ d ∈ (text.drop i).take n, (d != c) = true := by
    intro d hd
    obtain ⟨m, hm, rfl⟩ := List.getElem_of_mem hd
    rw [List.getElem_take, bne, Bool.not_eq_true']
    exact Bool.eq_false_iff.mpr (hbefore m (by simp at hm; omega))
  have hdrop : (text.drop i).dropWhile (· != c) = text.drop (i + n) := by
    conv_lhs => rw [← List.take_append_drop n (text.drop i)]
    rw [List.dropWhile_append_of_pos hfront, List.drop_drop, hrest]
    simp
  have := lt_length_of_drop hrest
  exact ⟨⟨Nat.le_add_right i n, by omega, hdrop.symm⟩, _, hrest⟩

/-- Where the parts of a pair stand, and what they are read as. -/
structure Cut.Fits (text : List Char) (x : Cut) : Prop where
  start_le : x.start ≤ x.equals
  equals_lt : x.equals < x.value
  value_le : x.value ≤ x.stop
  stop_le : x.stop ≤ text.length + 1
  equals_at : text[x.equals]? = some '='
  spaces : ∀ c ∈ slice text (x.equals + 1) x.value, c = ' '
  key_eq : x.key = Text.trimBoth Text.isBlank (slice text x.start x.equals)
  text_eq : readValue (slice text x.value x.stop) = (x.text, [])

theorem Cut.Fits.start_lt_stop {x : Cut} (h : x.Fits text) : x.start < x.stop :=
  Nat.lt_of_le_of_lt h.start_le (Nat.lt_of_lt_of_le h.equals_lt h.value_le)

theorem pairTurn_nil {cuts : List Cut} (h : text.drop i = []) :
    pairTurn text cuts i = pure (.done cuts) := by
  rw [pairTurn, if_neg (le_length_of_drop_nil h)]

theorem pairTurn_blank (cuts : List Cut) (h : text.drop i = c :: rest)
    (hblank : Text.isBlank c = true) : pairTurn text cuts i = pure (.again cuts (i + 1)) := by
  rw [pairTurn, ite_look_cons h, if_pos hblank]

theorem pairTurn_last (cuts : List Cut) (h : text.drop i = c :: rest)
    (hblank : ¬ Text.isBlank c = true) (hnone : positionFrom? '=' text i = none) :
    pairTurn text cuts i = pure (.done cuts) := by
  rw [pairTurn, ite_look_cons h, if_neg hblank, hnone]

/-- A turn that finds an equals sign cuts a key and a value from the text. -/
theorem pairTurn_cut (h : text.drop i = c :: rest) (hblank : ¬ Text.isBlank c = true) {equals : Nat}
    (hequals : positionFrom? '=' text i = some equals) :
    ∃ x : Cut, (∀ cuts, pairTurn text cuts i = pure (.again (cuts ++ [x]) x.stop)) ∧
      x.start = i ∧ x.Fits text ∧
      x.key = Text.trimBoth Text.isBlank ((text.drop i).takeWhile (· != '=')) ∧
      ∃ after, (text.drop i).dropWhile (· != '=') = '=' :: after ∧
        readValue (after.dropWhile (· == ' ')) = (x.text, text.drop x.stop) := by
  obtain ⟨hto, after, hafter⟩ := of_positionFrom? hequals
  have hkey : slice text i equals = (text.drop i).takeWhile (· != '=') :=
    hto.slice_eq List.takeWhile_append_dropWhile.symm
  have hnext := ReadsTo.next hafter
  obtain ⟨value, hvalue, hspaces⟩ := repeated_spacesTurn hnext.drop_eq hnext.le_length
  obtain ⟨stop, hstop, hread⟩ := valueAt_eq hspaces.drop_eq hspaces.le_length
  obtain ⟨front, hfront, halone⟩ := readValue_taken (after.dropWhile (· == ' '))
  refine ⟨⟨i, equals, value, stop, Text.trimBoth Text.isBlank (slice text i equals),
      (readValue (after.dropWhile (· == ' '))).1⟩,
    fun cuts => ?_, rfl, ?_, by rw [hkey], after, ?_, ?_⟩
  · rw [pairTurn, ite_look_cons h, if_neg hblank, hequals]
    simp only [hvalue, hstop, pure_bind]
  · exact {
      start_le := hto.le
      equals_lt := hspaces.le
      value_le := hread.le
      stop_le := hread.le_length
      equals_at := by rw [← List.head?_drop, hafter, List.head?_cons]
      spaces := by
        have hslice : slice text (equals + 1) value = after.takeWhile (· == ' ') :=
          hspaces.slice_eq (hnext.drop_eq.trans List.takeWhile_append_dropWhile.symm)
        intro d hd
        rw [hslice] at hd
        exact eq_of_beq (List.mem_takeWhile_imp (p := (· == ' ')) hd)
      key_eq := rfl
      text_eq := by rw [hread.slice_eq (hspaces.drop_eq.trans hfront), halone] }
  · rw [← hto.drop_eq, hafter]
  · rw [hread.drop_eq]

theorem pairTurn_advances (text : List Char) : Advances text (pairTurn text) := by
  intro cuts i
  cases h : text.drop i with
  | nil => exact ⟨_, pairTurn_nil h, nofun⟩
  | cons c rest =>
    have hlt := lt_length_of_drop h
    by_cases hblank : Text.isBlank c = true
    · refine ⟨_, pairTurn_blank cuts h hblank, fun _ j hj => ?_⟩
      cases hj
      exact ⟨hlt, Nat.lt_succ_self i⟩
    cases hequals : positionFrom? '=' text i with
    | none => exact ⟨_, pairTurn_last cuts h hblank hequals, nofun⟩
    | some equals =>
      obtain ⟨x, hx, rfl, hfits, -⟩ := pairTurn_cut h hblank hequals
      refine ⟨_, hx cuts, fun _ j hj => ?_⟩
      cases hj
      exact ⟨hlt, hfits.start_lt_stop⟩

theorem readPairs_skip (hblank : Text.isBlank c = true) (cs : List Char) :
    readPairs (c :: cs) = readPairs cs := by
  have hskip : (c :: cs).dropWhile Text.isBlank = cs.dropWhile Text.isBlank := by
    rw [List.dropWhile_cons, if_pos hblank]
  rw [readPairs]
  conv_rhs => rw [readPairs]
  split
  · next hnil =>
    rw [hskip] at hnil
    split
    · rfl
    · next hcons => rw [hnil] at hcons; cases hcons
  · next d after hcons =>
    rw [hskip] at hcons
    split
    · next hnil => rw [hcons] at hnil; cases hnil
    · next hcons' =>
      rw [hcons] at hcons'
      cases hcons'
      simp only [hskip]

theorem readPairs_of_none {cs : List Char} (hhead : cs.dropWhile Text.isBlank = cs)
    (h : cs.dropWhile (· != '=') = []) : readPairs cs = [] := by
  rw [readPairs]
  split
  · rfl
  · next hcons => rw [hhead, h] at hcons; cases hcons

theorem readPairs_of_cut {cs after value left : List Char}
    (hhead : cs.dropWhile Text.isBlank = cs) (h : cs.dropWhile (· != '=') = '=' :: after)
    (hvalue : readValue (after.dropWhile (· == ' ')) = (value, left)) :
    readPairs cs =
      let key := Text.trimBoth Text.isBlank (cs.takeWhile (· != '='))
      if key.isEmpty || key.any Text.isBlank then readPairs left
      else (String.ofList key, String.ofList value) :: readPairs left := by
  rw [readPairs]
  split
  · next hnil => rw [hhead, h] at hnil; cases hnil
  · next hcons =>
    rw [hhead, h] at hcons
    cases hcons
    simp only [hhead, hvalue]

/-- One cut after the other is taken off a text, and the pairs among them are the text's pairs. -/
theorem exists_cuts (i : Nat) (hi : i ≤ text.length + 1) :
    ∃ cuts : List Cut,
      (∀ before, repeated (pairTurn text) before i = pure (before ++ cuts)) ∧
      (∀ x ∈ cuts, i ≤ x.start ∧ x.Fits text) ∧
      cuts.Pairwise (fun x y => x.stop ≤ y.start) ∧
      cuts.filterMap Cut.pair? = readPairs (text.drop i) := by
  cases h : text.drop i with
  | nil =>
    refine ⟨[], fun before => ?_, nofun, .nil, ?_⟩
    · rw [List.append_nil, repeated_done (pairTurn_nil h)]
    · rw [readPairs_of_none rfl rfl]
      rfl
  | cons c rest =>
    have hlt := lt_length_of_drop h
    by_cases hblank : Text.isBlank c = true
    · have hnext := ReadsTo.next h
      obtain ⟨cuts, hcuts, hfit, hapart, hpairs⟩ := exists_cuts (i + 1) hnext.le_length
      refine ⟨cuts, fun before => ?_, fun x hx => ?_, hapart, ?_⟩
      · rw [repeated_again (pairTurn_blank before h hblank), hcuts]
      · exact ⟨Nat.le_of_succ_le (hfit x hx).1, (hfit x hx).2⟩
      · rw [hpairs, hnext.drop_eq, readPairs_skip hblank]
    have hhead : (c :: rest).dropWhile Text.isBlank = c :: rest := by
      rw [List.dropWhile_cons, if_neg hblank]
    cases hequals : positionFrom? '=' text i with
    | none =>
      refine ⟨[], fun before => ?_, nofun, .nil, ?_⟩
      · rw [List.append_nil, repeated_done (pairTurn_last before h hblank hequals)]
      · rw [readPairs_of_none hhead (h ▸ dropWhile_of_positionFrom?_none hequals)]
        rfl
    | some equals =>
      obtain ⟨x, hx, rfl, hfits, hkey, after, hafter, hvalue⟩ := pairTurn_cut h hblank hequals
      rw [h] at hkey hafter
      have hstart : x.start < x.stop := hfits.start_lt_stop
      obtain ⟨cuts, hcuts, hfit, hapart, hpairs⟩ := exists_cuts x.stop hfits.stop_le
      refine ⟨x :: cuts, fun before => ?_, ?_, ?_, ?_⟩
      · rw [repeated_again (hx before), hcuts, List.append_assoc]
        rfl
      · intro y hy
        rcases List.mem_cons.mp hy with rfl | hy
        · exact ⟨Nat.le_refl _, hfits⟩
        · exact ⟨Nat.le_trans (Nat.le_of_lt hstart) (hfit y hy).1, (hfit y hy).2⟩
      · exact List.pairwise_cons.mpr ⟨fun y hy => (hfit y hy).1, hapart⟩
      · rw [readPairs_of_cut hhead hafter hvalue, ← hpairs, ← hkey, List.filterMap_cons, Cut.pair?]
        split <;> simp_all
termination_by text.length - i

theorem Cut.pair?_plain {x : Cut} {p : String × String} (h : x.pair? = some p) :
    p.1 ≠ "" ∧ ∀ c ∈ p.1.toList, Text.isBlank c = false := by
  rw [Cut.pair?] at h
  split at h
  · cases h
  · next hplain =>
    cases h
    rw [Bool.or_eq_true, not_or, List.isEmpty_iff, List.any_eq_true] at hplain
    refine ⟨fun hempty => hplain.1 (String.ofList_eq_empty_iff.mp hempty), fun c hc => ?_⟩
    rw [String.toList_ofList] at hc
    exact Bool.eq_false_iff.mpr fun hblank => hplain.2 ⟨c, hc, hblank⟩

end

/-- A header with the text behind its opening bracket, and with what was cut from it. -/
structure Scanned where
  kind : List Char
  body : List Char
  cuts : List Cut

def Scanned.header (s : Scanned) : Header := ⟨String.ofList s.kind, s.cuts.filterMap Cut.pair?⟩

def scanBody (body : List Char) : Loop (Option Scanned) := do
  match body with
  | [] => return none
  | c :: rest =>
    if startsKind c then
      let kind := c :: rest.takeWhile continuesKind
      let cuts ← repeated (pairTurn body) [] kind.length
      return some ⟨kind, body, cuts⟩
    else return none

def scanLine (line : String) : Loop (Option Scanned) := do
  match Text.trimBoth Text.isBlank line.toList with
  | '[' :: rest => if rest.getLast? == some ']' then scanBody rest.dropLast else return none
  | _ => return none

/-- Every cut fits the text, and one stands behind the other. -/
structure Scanned.Orderly (s : Scanned) : Prop where
  fits : ∀ x ∈ s.cuts, x.Fits s.body
  apart : s.cuts.Pairwise fun x y => x.stop ≤ y.start

theorem Scanned.header_plain (s : Scanned) {p : String × String} (hp : p ∈ s.header.pairs) :
    p.1 ≠ "" ∧ ∀ c ∈ p.1.toList, Text.isBlank c = false := by
  obtain ⟨x, -, hx⟩ := List.mem_filterMap.mp hp
  exact Cut.pair?_plain hx

theorem scanBody_eq (body : List Char) :
    ∃ found, scanBody body = pure found ∧ found.map Scanned.header = headerOfBody body ∧
      ∀ s ∈ found, s.body = body ∧ s.Orderly := by
  cases body with
  | nil => exact ⟨none, rfl, rfl, fun s hs => absurd hs (Option.not_mem_none s)⟩
  | cons c rest =>
    by_cases hstarts : startsKind c = true
    · let kind := c :: rest.takeWhile continuesKind
      have hbody : c :: rest = kind ++ rest.dropWhile continuesKind := by
        rw [List.cons_append, List.takeWhile_append_dropWhile]
      have hrest : (c :: rest).drop kind.length = rest.dropWhile continuesKind := by
        rw [hbody, List.drop_left]
      have hle : kind.length ≤ (c :: rest).length + 1 := by
        rw [hbody, List.length_append]
        omega
      obtain ⟨cuts, hcuts, hfit, hapart, hpairs⟩ := exists_cuts kind.length hle
      refine ⟨some ⟨kind, c :: rest, cuts⟩, ?_, ?_, ?_⟩
      · simp only [scanBody, if_pos hstarts]
        rw [hcuts [], pure_bind]
        rfl
      · rw [headerOfBody, if_pos hstarts, ← hrest, ← hpairs]
        rfl
      · rintro _ ⟨⟩
        exact ⟨rfl, fun x hx => (hfit x hx).2, hapart⟩
    · refine ⟨none, by rw [scanBody, if_neg hstarts], ?_,
        fun s hs => absurd hs (Option.not_mem_none s)⟩
      rw [headerOfBody, if_neg hstarts, Option.map_none]

theorem scanLine_eq (line : String) :
    ∃ found, scanLine line = pure found ∧ found.map Scanned.header = Header.ofLine line ∧
      ∀ s ∈ found, Text.trimBoth Text.isBlank line.toList = '[' :: s.body ++ [']'] ∧ s.Orderly := by
  by_cases hopen : ∃ rest, Text.trimBoth Text.isBlank line.toList = '[' :: rest
  · obtain ⟨rest, htrim⟩ := hopen
    simp only [scanLine, Header.ofLine, htrim]
    by_cases hclosed : (rest.getLast? == some ']') = true
    · obtain ⟨found, hscan, hheader, horderly⟩ := scanBody_eq rest.dropLast
      simp only [if_pos hclosed]
      refine ⟨found, hscan, hheader, fun s hs => ⟨?_, (horderly s hs).2⟩⟩
      rw [(horderly s hs).1, List.cons_append,
        List.dropLast_append_getLast? ']' (eq_of_beq hclosed)]
    · simp only [if_neg hclosed]
      exact ⟨none, rfl, rfl, fun s hs => absurd hs (Option.not_mem_none s)⟩
  · have hscan : scanLine line = pure none := by
      rw [scanLine.eq_def]
      split
      · next rest htrim => exact absurd ⟨rest, htrim⟩ hopen
      · rfl
    have hheader : Header.ofLine line = none := by
      rw [Header.ofLine.eq_def]
      split
      · next rest htrim => exact absurd ⟨rest, htrim⟩ hopen
      · rfl
    refine ⟨none, hscan, ?_, fun s hs => absurd hs (Option.not_mem_none s)⟩
    rw [hheader, Option.map_none]

/-- Whatever the line, every loop goes on in its text with each turn and none looks outside it; what
they come to is the header of the line. Each of its pairs was cut from the text between the
brackets, one behind the other, and no key is empty or holds a blank. -/
theorem Header.scanned_safely (line : String) :
    (∀ text, Advances text (pairTurn text) ∧ Advances text (spacesTurn text) ∧
      Advances text (quotedTurn text) ∧ Advances text (rawTurn text) ∧
      Advances text (groupTurn text)) ∧
    ∃ found, scanLine line = pure found ∧ found.map Scanned.header = Header.ofLine line ∧
      ∀ s ∈ found, Text.trimBoth Text.isBlank line.toList = '[' :: s.body ++ [']'] ∧ s.Orderly ∧
        ∀ p ∈ s.header.pairs, p.1 ≠ "" ∧ ∀ c ∈ p.1.toList, Text.isBlank c = false := by
  refine ⟨fun text => ⟨pairTurn_advances text, spacesTurn_advances text, quotedTurn_advances text,
    rawTurn_advances text, groupTurn_advances text⟩, ?_⟩
  obtain ⟨found, hscan, hheader, horderly⟩ := scanLine_eq line
  refine ⟨found, hscan, hheader, fun s hs => ?_⟩
  exact ⟨(horderly s hs).1, (horderly s hs).2, fun p => s.header_plain⟩

end SceneCodegen.Scene
