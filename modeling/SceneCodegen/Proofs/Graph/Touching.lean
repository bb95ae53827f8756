import SceneCodegen.Proofs.Graph.Pairs

/-!
# Updates of the streams of a join

A join over two of the input streams of a graph in which anything else may be. Once all pairs have
been read, an update of a stream leads to new reads of the pairs only that it touches, as long as no
cancelled pass drops what they rest on.
-/
namespace SceneCodegen.Graph

section
variable {K : Type} {V : K → Type} [BEq K] [LawfulBEq K] [∀ k, BEq (V k)] {s s' : Store K V}

theorem SetAll.same_or_renewed {settings : List ((k : K) × V k)} (h : SetAll settings s s')
    (d : K) : s'.inputs.get? d = s.inputs.get? d ∨ Renewed s s' d := by
  by_cases hd : d ∈ settings.map Sigma.fst
  · obtain ⟨⟨d, v⟩, hmem, rfl⟩ := List.mem_map.mp hd
    cases h.took d v hmem with
    | kept hx _ hx' => exact .inl (hx'.trans hx.symm)
    | changed _ hr _ hx' => exact .inr ⟨_, hx', hr⟩
  · exact .inl (h.other d hd)

end

namespace Family
variable {K : Type} {V : K → Type} {ι α : Type} [BEq K] [LawfulBEq K] [∀ k, BEq (V k)] [BEq ι]
  {f : Family K V (InputNode.Value ι α)} {s s' : Store K V}

/-- What became of a stream by an update, be it taken or refused: all items are set that are listed
before or afterwards. -/
structure Rewritten (f : Family K V (InputNode.Value ι α)) (s s' : Store K V) : Prop where
  refreshed : Refreshed s s'
  inputs : ∀ d, s'.inputs.get? d = s.inputs.get? d ∨ Renewed s s' d
  item : ∀ i, i ∈ f.valueOf .keys s ∨ i ∈ f.valueOf .keys s' →
    ∃ a, Took s s' (f.key (.item i)) (f.encode (.item i) a)
  other : ∀ k, (∀ n, f.key n ≠ k) → s'.inputs.get? k = s.inputs.get? k

variable [LawfulBEq ι] {old : List ι} {items : Table ι (Option α)}

omit [BEq K] [LawfulBEq K] [∀ k, BEq (V k)] in
theorem exists_setting {i : ι} (hi : i ∈ old ∨ i ∈ items.keys) : ∃ a,
    f.setting (.item i) a ∈ f.itemSettings ((missing old items).map (·, none) ++ items) := by
  have hexists : ∃ a, (i, a) ∈ (missing old items).map (·, (none : Option α)) ++ items := by
    by_cases hnew : i ∈ items.keys
    · obtain ⟨⟨j, a⟩, hx, rfl⟩ := List.mem_map.mp hnew
      exact ⟨a, List.mem_append_right _ hx⟩
    · have hmissing : i ∈ missing old items := mem_missing.mpr ⟨hi.resolve_right hnew, hnew⟩
      exact ⟨none, List.mem_append_left _ (List.mem_map_of_mem hmissing)⟩
  obtain ⟨a, ha⟩ := hexists
  exact ⟨a, List.mem_map_of_mem (f := fun x => f.setting (.item x.1) x.2) ha⟩

theorem Rewritten.of_set {last : List ((k : K) × V k)}
    (hset : SetAll
      (f.itemSettings ((missing (f.valueOf .keys s) items).map (·, none) ++ items) ++ last) s s')
    (hlast : ∀ x ∈ last, ∃ keys, x = f.setting .keys keys)
    (hlisted : ∀ i ∈ f.valueOf .keys s', i ∈ f.valueOf .keys s ∨ i ∈ items.keys) :
    f.Rewritten s s' where
  refreshed := hset.refreshed
  inputs := hset.same_or_renewed
  item i hi := by
    obtain ⟨a, ha⟩ := exists_setting (f := f) (hi.elim .inl (hlisted i))
    exact ⟨a, hset.took _ _ (List.mem_append_left _ ha)⟩
  other k hk := by
    refine hset.other k fun hmem => ?_
    obtain ⟨x, hx, rfl⟩ := List.mem_map.mp hmem
    rcases List.mem_append.mp hx with hx | hx
    · obtain ⟨y, -, rfl⟩ := List.mem_map.mp hx
      exact hk (.item y.1) rfl
    · obtain ⟨keys, rfl⟩ := hlast x hx
      exact hk .keys rfl

variable [ItemKey ι]

omit [LawfulBEq ι] in
/-- Where keys cannot be put in order, the items are set already. -/
theorem replaceAll_refused {e : String × String} (hidle : s.active = [])
    (hold : f.inputValue .keys s = .ok old) (hkeys : ItemKey.sorted items.keys = .error e) :
    (f.replaceAll items s).2 =
      s.setAll (f.itemSettings ((missing old items).map (·, none) ++ items)) := by
  obtain ⟨changed, hitems⟩ := f.setItems_eq hidle ((missing old items).map (·, none) ++ items)
  rw [missing] at hitems ⊢
  rw [replaceAll, hold]
  simp only [hitems, sortKeys, hkeys]
  rfl

namespace Faithful
variable [BEq α] [Arranging ι] (hf : f.Faithful)
include hf

theorem replaceAll_rewritten (hidle : s.active = []) (hunlike : Unlike items.keys) :
    f.Rewritten s (f.replaceAll items s).2 := by
  have hnodup (keys : List ι) :=
    hf.nodup_settings (f.valueOf .keys s) keys (Unlike.nodup hunlike)
  have hold := hf.inputValue_eq .keys s
  cases hkeys : ItemKey.sorted items.keys with
  | error e =>
    have hprefix := hnodup []
    rw [settings, List.map_append] at hprefix
    have hset := setAll_set hidle (List.nodup_append.mp hprefix).1
    have hitems {l : List ((k : K) × V k)} {t : Store K V} (h : SetAll l s t) :
        SetAll (l ++ []) s t := by
      rw [List.append_nil]
      exact h
    rw [replaceAll_refused hidle hold hkeys]
    refine .of_set (hitems hset) (by simp) fun i hi => .inl ?_
    rw [f.valueOf_congr (input?_congr (hset.other _ fun hmem => ?_))] at hi
    · exact hi
    · exact (List.nodup_append.mp hprefix).2.2 _ hmem _ (List.mem_singleton_self _) rfl
  | ok keys =>
    obtain ⟨changed, heq⟩ := f.replaceAll_eq hidle hold hkeys
    have hset := setAll_set hidle (hnodup keys)
    rw [heq]
    refine .of_set hset (by simp) fun i hi => ?_
    have htook := hset.took _ _ (List.mem_append_right _ (List.mem_singleton_self _))
    cases htook with
    | kept hx _ hx' =>
      rw [f.valueOf_congr (input?_congr (hx'.trans hx.symm))] at hi
      exact .inl hi
    | changed _ _ _ hx' =>
      rw [hf.valueOf_of_input (w := keys) (by rw [Store.input?, hx']; rfl)] at hi
      exact .inr ((Arranging.mem_sorted hunlike hkeys i).mp hi)

omit [LawfulBEq ι] [ItemKey ι] [Arranging ι] in
/-- An item that is listed, or comes in with a value it did not have, is new if it changed. -/
theorem renewed_iff_of_rewritten [PartialEquivBEq α] (h : f.Rewritten s s') (hs : Dated s) {i : ι}
    (hi : i ∈ f.valueOf .keys s')
    (hnew : s.inputs.get? (f.key (.item i)) = none →
      (f.valueOf (.item i) s == f.valueOf (.item i) s') = false) :
    Renewed s s' (f.key (.item i)) ↔
      (f.valueOf (.item i) s == f.valueOf (.item i) s') = false := by
  obtain ⟨a, htook⟩ := h.item i (.inr hi)
  rw [htook.renewed_iff hs (Nat.le_refl _) rfl]
  cases hx : s.inputs.get? (f.key (.item i)) with
  | none => exact ⟨fun _ => hnew hx, fun _ _ h => by cases h⟩
  | some x =>
    have hvalue : f.encode (.item i) (f.valueOf (.item i) s) = x.value :=
      hf.encode_valueOf (by rw [Store.input?, hx]; rfl)
    cases htook with
    | kept hy hsame hy' =>
      rw [hx] at hy
      cases hy
      rw [f.valueOf_congr (input?_congr (hy'.trans hx.symm))]
      rw [← hvalue, hf.item_beq] at hsame
      rw [beq_self_of_beq hsame]
      refine ⟨fun hdiffers => ?_, fun hno => by cases hno⟩
      have hdiffers := hdiffers x rfl
      rw [← hvalue, hf.item_beq, hsame] at hdiffers
      exact hdiffers
    | changed hdiffers _ _ hy' =>
      have hafter : f.valueOf (.item i) s' = a :=
        hf.valueOf_of_input (by rw [Store.input?, hy']; rfl)
      rw [hafter, ← hf.item_beq, hvalue]
      exact ⟨fun h => h x rfl, fun h y hy => by cases hy; exact h⟩

end Faithful
end Family

section
variable {K : Type} {V : K → Type} {S : Type} {I A : S → Type} [BEq K] [LawfulBEq K]
  [∀ k, BEq (V k)] [∀ s, BEq (I s)] [∀ s, ItemKey (I s)]
  {inputs : (s : S) → Family K V (InputNode.Value (I s) (A s))} {rules : Rules K V}
  {st : Store K V} {d : Deed K V I A} {s : S}

/-- A deed is an update of an input stream. -/
def Deed.Of (s : S) : Deed K V I A → Prop
  | replace s' _ => s' = s
  | update s' _ _ => s' = s
  | other _ => False

omit [BEq K] [LawfulBEq K] [∀ k, BEq (V k)] [∀ s, BEq (I s)] [∀ s, ItemKey (I s)] in
theorem Deed.Of.apart (hd : d.Of s) : d.Apart inputs := by
  cases d with
  | other move => exact hd.elim
  | _ => trivial

omit [BEq K] [LawfulBEq K] [∀ k, BEq (V k)] [∀ s, BEq (I s)] [∀ s, ItemKey (I s)] in
/-- An update is of one stream. -/
theorem Deed.Of.unique {s' : S} (hd : d.Of s) (hd' : d.Of s') : s = s' := by
  cases d with
  | other move => exact hd.elim
  | _ => exact Eq.trans (Eq.symm hd) hd'

theorem Deed.Of.rewritten [BEq (A s)] [LawfulBEq (I s)] [Arranging (I s)]
    (hd : d.Of s) (hf : (inputs s).Faithful) (hidle : st.active = []) :
    (inputs s).Rewritten st (d.apply inputs rules st) := by
  cases d with
  | replace s' items =>
    obtain rfl : s' = s := hd
    exact hf.replaceAll_rewritten hidle (Table.unlike_ofList items)
  | update s' items removed =>
    obtain rfl : s' = s := hd
    rw [Deed.apply, hf.update_eq]
    exact hf.replaceAll_rewritten hidle (Family.unlike_updating _ _ _)
  | other move => exact hd.elim

/-- All that is done but updates of a stream leaves its inputs alone. -/
theorem Deed.untouched (hapart : ∀ s s' n n', (inputs s).key n = (inputs s').key n' → s = s')
    (hd : d.Apart inputs) (hs : ¬ d.Of s) (hidle : st.active = []) (n : InputNode (I s)) :
    (d.apply inputs rules st).inputs.get? ((inputs s).key n) =
      st.inputs.get? ((inputs s).key n) := by
  cases d with
  | replace s' items =>
    exact (Family.replaceAll_leaves _ st).other _ fun n' heq => hs (hapart s' s n' n heq)
  | update s' items removed =>
    exact (Family.update_leaves _ _ st).other _ fun n' heq => hs (hapart s' s n' n heq)
  | other move =>
    cases move with
    | set k v => exact (setInput_set hidle k v).1.other _ (by simpa using hd s n)
    | run depth program =>
      exact congrArg (fun t => NodeTable.get? t _) (run_inputs rules depth program st).inputs
    | enter token => rfl
    | leave wasCancelled => rfl

end

theorem Refreshed.only {K : Type} {V : K → Type} [BEq K] [LawfulBEq K] {T : K → Prop}
    [DecidablePred T] {s t : Store K V} (h : Refreshed s t) : Refreshed (s.only T) (t.only T) where
  memos := congrArg (NodeTable.only T) h.memos
  executed := h.executed
  revision := h.revision
  inputs := h.inputs

namespace Join
section
variable {K : Type} {V : K → Type} {ι₁ ι₂ κ α β : Type} [BEq K] [LawfulBEq K] [BEq κ] [BEq β]
  {J : Join K V ι₁ ι₂ κ α β} [BEq ι₁] [BEq ι₂] [BEq α] [∀ k, BEq (V k)] {rules : Rules K V}
  {s s' t : Store K V} {r : Nat} {i : ι₁} {keys : List ι₁} {depth : Nat}

/-- The state of a join, whatever was done to its graph. -/
structure Ready [EquivBEq β] [∀ k, Nonempty (V k)] (J : Join K V ι₁ ι₂ κ α β) (rules : Rules K V)
    (s : Store K V) : Prop where
  idle : s.active = []
  rests : RestsAlone J.Has rules J.likeness s
  stored : ∀ i ∈ J.left.valueOf .keys s, s.inputs.get? (J.left.key (.item i)) ≠ none

/-- Only inputs of the streams matter to the pairs. -/
theorem PairsRead.of_frame (h : J.PairsRead rules s) (hJ : J.Placed rules) (hs : Shut J.Has s)
    (hr : s.revision ≤ s'.revision) (hm : s'.memos = s.memos)
    (hleft : ∀ n, s'.inputs.get? (J.left.key n) = s.inputs.get? (J.left.key n))
    (hright : ∀ n, s'.inputs.get? (J.right.key n) = s.inputs.get? (J.right.key n)) :
    J.PairsRead rules s' := by
  obtain ⟨r, hle, hl⟩ := h
  refine ⟨r, Nat.le_trans hle hr, fun i hi => ?_⟩
  rw [J.left.valueOf_congr (Family.input?_congr (hleft .keys))] at hi
  refine (hl i hi).of_closed (C := J.Has) (fun k m d hk hmk hd => hs.memos k m hk hmk d hd)
    (fun _ _ => rfl) (fun k _ => by rw [hm]) (fun k absent hk hrule hlk => ?_) (.node _)
  have hsame : s'.inputs.get? k = s.inputs.get? k := by
    cases hk with
    | left n => exact hleft n
    | right n => exact hright n
    | node n => exact absurd rfl (hJ.node_ne hrule n)
  rw [hsame]
  exact hlk.changedAt_input_le hrule

omit [BEq κ] [BEq β] [BEq ι₁] [BEq ι₂] [BEq α] in
/-- Whatever is read, the pairs have been read. -/
theorem PairsRead.run {γ : Type} (h : J.PairsRead rules s) (depth : Nat) (p : Program K V γ) :
    J.PairsRead rules (p.run rules depth s).2 := by
  obtain ⟨r, hr, hl⟩ := h
  have hupholds := run_upholds rules depth p hr
  refine ⟨r, hupholds.revision ▸ hr, fun i hi => ?_⟩
  rw [valueOf_congr_inputs hupholds.inputs] at hi
  exact hupholds.lasts (hl i hi)

variable [∀ k, Nonempty (V k)]

omit [BEq κ] [BEq β] [BEq ι₁] [BEq ι₂] [BEq α] [∀ k, BEq (V k)] in
theorem pairsRead_only_iff (hs : Shut J.Has s) :
    J.PairsRead (onlyRules J.Has rules) (s.only J.Has) ↔ J.PairsRead rules s :=
  exists_congr fun _ => and_congr_right fun _ => forall₂_congr fun _ _ =>
    lasts_only_iff hs (.node _)

omit [BEq κ] [BEq β] [BEq ι₁] [BEq ι₂] [BEq α] [∀ k, BEq (V k)] in
theorem Rereads.of_only (hs : Shut J.Has s') {touched : ι₁ → Prop}
    (h : J.Rereads (onlyRules J.Has rules) touched (s.only J.Has) (s'.only J.Has)) :
    J.Rereads rules touched s s' where
  executed := h.executed
  served i hi hti := by
    have hserved := h.served i hi hti
    simp only [Store.only, NodeTable.get?_only, if_pos (Has.node (J := J) (.item i))] at hserved
    exact hserved
  again := (pairsRead_only_iff hs).mp h.again

/-- All pairs are read as if there were no other nodes. -/
theorem Placed.run_pairs_only (h : J.Placed rules) (hs : Shut J.Has t) (hidle : t.active = [])
    (depth : Nat) : J.pairs.items.run (onlyRules J.Has rules) depth (t.only J.Has) =
      ((J.pairs.items.run rules depth t).1, (J.pairs.items.run rules depth t).2.only J.Has) ∧
    Shut J.Has (J.pairs.items.run rules depth t).2 := by
  have hidle' : (t.only J.Has).active = [] := by rw [Store.only, hidle, List.filter_nil]
  have hwithin : (J.pairsOf (J.left.valueOf .keys t)).Within J.Has :=
    (Placed.pairsOf_within J _).mono fun d hd => by
      obtain ⟨i, -, rfl⟩ := hd
      exact .node _
  rw [h.run_pairs hidle, h.alone.run_pairs hidle']
  exact run_mirrors h.closed hwithin hs hidle depth

omit [BEq κ] [BEq β] [BEq ι₁] [BEq ι₂] [BEq α] [∀ k, BEq (V k)] [∀ k, Nonempty (V k)] in
/-- What a node rests on alone it rests on, and is of the join. -/
theorem restsOn_of_only (hs : Shut J.Has s) {k d : K} (hk : J.Has k)
    (h : RestsOn (s.only J.Has) k d) : RestsOn s k d ∧ J.Has d := by
  induction h with
  | self k => exact ⟨.self k, hk⟩
  | @read k d e m hm hd _ ih =>
    rw [Store.only, NodeTable.get?_only, if_pos hk] at hm
    obtain ⟨hrests, he⟩ := ih (hs.memos k m hk hm d hd)
    exact ⟨.read hm hd hrests, he⟩

namespace Ready
variable [Node K] [EquivBEq β] [LawfulBEq κ] (h : J.Ready rules s) (hJ : J.Placed rules)
include h hJ

omit [LawfulBEq κ] in
/-- Reads of all pairs come to an end, unless a pass is cancelled. -/
theorem completes (htoken : s.token = none) (hdepth : 4 ≤ depth) :
    ∃ pairs, (J.pairs.items.run rules depth s).1 = .ok pairs := by
  have hends := h.rests.rest.run_ends hJ.alone.orderly hJ.alone.leveled
    (hJ.alone.pairsOf_safe (J.left.valueOf .keys (s.only J.Has)) hdepth)
  rw [← hJ.alone.run_pairs h.rests.rest.idle, (hJ.run_pairs_only h.rests.shut h.idle depth).1]
    at hends
  exact hends.resolve_right fun hno => hno.1 htoken

variable {pairs : List (ι₁ × JoinPair α β)}

omit [Node K] [LawfulBEq κ] in
theorem run_alone (hrun : (J.pairs.items.run rules depth s).1 = .ok pairs) :
    (J.pairsOf (J.left.valueOf .keys s)).run (onlyRules J.Has rules) depth (s.only J.Has) =
      (.ok pairs, (J.pairs.items.run rules depth s).2.only J.Has) := by
  rw [← hrun, ← (hJ.run_pairs_only h.rests.shut h.idle depth).1,
    hJ.alone.run_pairs h.rests.rest.idle]
  rfl

omit [Node K] [LawfulBEq κ] in
/-- All pairs have been read once each lasts alone. -/
theorem pairsRead_of_lasts (hl : ∀ i ∈ J.left.valueOf .keys s, Lasts (onlyRules J.Has rules)
      ((J.pairs.items.run rules depth s).2.only J.Has) (J.pairs.items.run rules depth s).2.revision
      (J.nodes.key (.item i))) :
    J.PairsRead rules (J.pairs.items.run rules depth s).2 := by
  refine (pairsRead_only_iff (hJ.run_pairs_only h.rests.shut h.idle depth).2).mp
    ⟨_, Nat.le_refl _, fun i hi => hl i ?_⟩
  rwa [← valueOf_congr_inputs (run_inputs rules depth J.pairs.items s).inputs]

omit [LawfulBEq κ] in
theorem pairsRead_of_intact (hdepth : 4 ≤ depth)
    (hrun : (J.pairs.items.run rules depth s).1 = .ok pairs)
    (hintact : ∀ i ∈ J.left.valueOf .keys s,
      Intact rules (J.pairs.items.run rules depth s).2 (J.nodes.key (.item i))) :
    J.PairsRead rules (J.pairs.items.run rules depth s).2 := by
  have hafter := h.rests.run hJ.closed hJ.alone.orderly hJ.alone.leveled depth J.pairs.items
  refine h.pairsRead_of_lasts hJ fun i hi => ?_
  refine h.rests.rest.lasts_of_demanded hJ.alone.orderly hJ.alone.leveled
    (hJ.alone.pairsOf_safe _ hdepth) (h.run_alone hJ hrun) hafter.rest
    (hJ.alone.pairsOf_demands hi) fun d hd => ?_
  obtain ⟨hrests, hT⟩ := restsOn_of_only hafter.shut (.node _) hd
  rw [onlyRules_of_mem hT, Store.only, NodeTable.get?_only, if_pos hT]
  exact hintact i hi d hrests

omit [LawfulBEq κ] in
theorem pairsRead_of_stale (hdepth : 4 ≤ depth)
    (hrun : (J.pairs.items.run rules depth s).1 = .ok pairs)
    (hstale : ∀ n m, s.memos.get? (J.nodes.key n) = some m → m.verifiedAt < s.revision) :
    J.PairsRead rules (J.pairs.items.run rules depth s).2 := by
  have hrooted : Rooted (onlyRules J.Has rules) (s.only J.Has) := by
    intro k m hm hv
    obtain ⟨p, hp⟩ := h.rests.rest.tidy.query k m hm
    obtain ⟨n, rfl⟩ := hJ.alone.query k p hp
    rw [Store.only, NodeTable.get?_only, if_pos (.node n)] at hm
    exact absurd hv (Nat.ne_of_lt (hstale n m hm))
  have hafter := h.rests.run hJ.closed hJ.alone.orderly hJ.alone.leveled depth J.pairs.items
  have halone := h.run_alone hJ hrun
  obtain ⟨-, -, hgrounded⟩ := h.rests.rest.run_visits hJ.alone.orderly hJ.alone.leveled
    (hJ.alone.pairsOf_safe _ hdepth) hrooted (congrArg Prod.fst halone)
  rw [halone] at hgrounded
  exact h.pairsRead_of_lasts hJ fun i hi =>
    .of_grounded hafter.rest.tidy hafter.rest.dated (hgrounded _ (hJ.alone.pairsOf_demands hi))

theorem rereads (hread : J.PairsRead rules s) (ht : J.Ready rules t) (hset : Refreshed s t)
    (hinputs : ∀ d, t.inputs.get? d = s.inputs.get? d ∨ Renewed s t d) (hdepth : 4 ≤ depth)
    (hrun : (J.pairs.items.run rules depth t).1 = .ok pairs) {touched : ι₁ → Prop}
    (htouched : ∀ i ∈ J.left.valueOf .keys t,
      touched i ↔ Renewed s t (J.left.key (.item i)) ∨ J.Differs s t i)
    (hnew : ∀ i ∈ J.left.valueOf .keys t, i ∉ J.left.valueOf .keys s →
      Renewed s t (J.left.key (.item i))) :
    J.Rereads rules touched s (J.pairs.items.run rules depth t).2 := by
  obtain ⟨hmirror, hshut⟩ := hJ.run_pairs_only ht.rests.shut ht.idle depth
  refine .of_only hshut ?_
  have hrun' : (J.pairs.items.run (onlyRules J.Has rules) depth (t.only J.Has)).1 = .ok pairs := by
    rw [hmirror]
    exact hrun
  have hrereads := hJ.alone.rereads h.rests.rest ((pairsRead_only_iff h.rests.shut).mpr hread)
    hset.only hinputs ht.rests.rest hdepth hrun' htouched hnew
  rw [hmirror] at hrereads
  exact hrereads

end Ready

end

section
variable {K : Type} {V : K → Type} {S : Type} {I A : S → Type} {κ : Type} [BEq K] [LawfulBEq K]
  [Node K] [∀ k, BEq (V k)] [∀ k, Nonempty (V k)] [∀ s, BEq (I s)] [∀ s, BEq (A s)]
  [∀ s, ItemKey (I s)] [BEq κ] {inputs : (s : S) → Family K V (InputNode.Value (I s) (A s))}
  {rules : Rules K V} {st : Store K V} {l r : S}

/-- A join over two of the input streams of a graph, each of which has nodes of its own. -/
structure Over (inputs : (s : S) → Family K V (InputNode.Value (I s) (A s))) (rules : Rules K V)
    (J : Join K V (I l) (I r) κ (A l) (A r)) : Prop extends J.Placed rules where
  left_eq : J.left = inputs l
  right_eq : J.right = inputs r
  streams_apart : ∀ s s' n n', (inputs s).key n = (inputs s').key n' → s = s'

namespace Over
variable {J : Join K V (I l) (I r) κ (A l) (A r)} (h : J.Over inputs rules)
include h

omit [BEq K] [LawfulBEq K] [Node K] [∀ k, Nonempty (V k)] [∀ s, ItemKey (I s)] in
theorem sides_ne : l ≠ r := by
  rintro rfl
  refine h.apart .keys .keys ?_
  rw [h.left_eq, h.right_eq]

omit [Node K] [∀ k, Nonempty (V k)] in
theorem left_untouched {d : Deed K V I A} (hd : d.Apart inputs) (hl : ¬ d.Of l)
    (hidle : st.active = []) (n : InputNode (I l)) :
    (d.apply inputs rules st).inputs.get? (J.left.key n) = st.inputs.get? (J.left.key n) := by
  rw [h.left_eq]
  exact d.untouched h.streams_apart hd hl hidle n

omit [Node K] [∀ k, Nonempty (V k)] in
theorem right_untouched {d : Deed K V I A} (hd : d.Apart inputs) (hr : ¬ d.Of r)
    (hidle : st.active = []) (n : InputNode (I r)) :
    (d.apply inputs rules st).inputs.get? (J.right.key n) = st.inputs.get? (J.right.key n) := by
  rw [h.right_eq]
  exact d.untouched h.streams_apart hd hr hidle n

variable [EquivBEq (A r)]

theorem rests_apply {d : Deed K V I A} (hidle : st.active = [])
    (hst : RestsAlone J.Has rules J.likeness st) :
    (d.apply inputs rules st).active = [] ∧
      RestsAlone J.Has rules J.likeness (d.apply inputs rules st) := by
  have hset (k : K) (v : V k) (s : Store K V)
      (hs : s.active = [] ∧ RestsAlone J.Has rules J.likeness s) :
      (s.setInput k v).2.active = [] ∧ RestsAlone J.Has rules J.likeness (s.setInput k v).2 :=
    ⟨(setInput_set hs.1 k v).1.active.trans hs.1, hs.2.setInput hs.1 (h.like_self k v)⟩
  cases d with
  | replace s items => exact Family.replaceAll_keeps (fun n v s' => hset _ v s') _ ⟨hidle, hst⟩
  | update s items removed =>
    exact Family.update_keeps (fun n v s' => hset _ v s') _ removed ⟨hidle, hst⟩
  | other move =>
    cases move with
    | set k v => exact hset k v st ⟨hidle, hst⟩
    | run depth program =>
      exact ⟨run_idle rules depth program hidle,
        hst.run h.closed h.alone.orderly h.alone.leveled depth program⟩
    | enter token => exact ⟨hidle, hst.beginPass token⟩
    | leave wasCancelled => exact ⟨hidle, hst.endPass wasCancelled⟩

omit [Node K] in
/-- What is done beyond the streams of a join, and drops nothing, leaves its pairs read. -/
theorem pairsRead_apply (hst : J.Ready rules st) (hread : J.PairsRead rules st)
    {d : Deed K V I A} (hd : d.Apart inputs) (hl : ¬ d.Of l) (hr : ¬ d.Of r)
    (hdrop : d ≠ .other (.leave true)) : J.PairsRead rules (d.apply inputs rules st) := by
  have hset (s : S) (hsl : s ≠ l) (hsr : s ≠ r) (n : InputNode (I s)) (v : V ((inputs s).key n))
      (x : Store K V) (hx : x.active = [] ∧ Shut J.Has x ∧ J.PairsRead rules x) :
      (x.setInput ((inputs s).key n) v).2.active = [] ∧
        Shut J.Has (x.setInput ((inputs s).key n) v).2 ∧
        J.PairsRead rules (x.setInput ((inputs s).key n) v).2 := by
    obtain ⟨hidle, hshut, hpairs⟩ := hx
    have hset := (setInput_set hidle ((inputs s).key n) v).1
    refine ⟨hset.active.trans hidle, hshut.of_same hset.memos (by rw [hset.active, hidle]; simp),
      hpairs.of_frame h.toPlaced hshut hset.revision hset.memos (fun m => hset.other _ ?_)
        fun m => hset.other _ ?_⟩
    · rw [h.left_eq]
      simpa using fun he => hsl (h.streams_apart _ _ _ _ he).symm
    · rw [h.right_eq]
      simpa using fun he => hsr (h.streams_apart _ _ _ _ he).symm
  have hframe (hr' : st.revision ≤ (d.apply inputs rules st).revision)
      (hm : (d.apply inputs rules st).memos = st.memos) :
      J.PairsRead rules (d.apply inputs rules st) :=
    hread.of_frame h.toPlaced hst.rests.shut hr' hm (h.left_untouched hd hl hst.idle)
      (h.right_untouched hd hr hst.idle)
  cases d with
  | replace s items =>
    exact (Family.replaceAll_keeps (hset s hl hr) _ ⟨hst.idle, hst.rests.shut, hread⟩).2.2
  | update s items removed =>
    exact (Family.update_keeps (hset s hl hr) _ removed ⟨hst.idle, hst.rests.shut, hread⟩).2.2
  | other move =>
    cases move with
    | set k v => exact hframe (setInput_set hst.idle k v).1.revision (setInput_frame k v st).1
    | run depth program => exact hread.run depth program
    | enter token => exact hframe (Nat.le_refl _) rfl
    | leave wasCancelled =>
      cases wasCancelled with
      | false => exact hframe (Nat.le_refl _) rfl
      | true => exact absurd rfl hdrop

variable [LawfulBEq (I l)] [Arranging (I l)]

theorem ready_apply {d : Deed K V I A} (hd : d.Apart inputs) (hst : J.Ready rules st) :
    J.Ready rules (d.apply inputs rules st) := by
  obtain ⟨hidle, hrests⟩ := h.rests_apply (d := d) hst.idle hst.rests
  refine ⟨hidle, hrests, fun i hi => ?_⟩
  by_cases hl : d.Of l
  · have hset : J.left.Rewritten st (d.apply inputs rules st) := by
      rw [h.left_eq]
      exact hl.rewritten (h.left_eq ▸ h.left_faithful) hst.idle
    obtain ⟨a, htook⟩ := hset.item i (.inr hi)
    cases htook with
    | kept _ _ hx => simp [hx]
    | changed _ _ _ hx => simp [hx]
  · have hsame := h.left_untouched hd hl hst.idle
    rw [J.left.valueOf_congr (Family.input?_congr (hsame .keys))] at hi
    rw [hsame]
    exact hst.stored i hi

theorem ready {deeds : List (Deed K V I A)} (hdeeds : ∀ d ∈ deeds, d.Apart inputs) :
    J.Ready rules (reachBy inputs rules deeds) := by
  induction deeds using List.reverseRecOn with
  | nil => exact ⟨rfl, .empty, fun _ hi => nomatch hi⟩
  | append_singleton deeds d ih =>
    rw [reachBy_snoc]
    exact h.ready_apply (hdeeds d (by simp)) (ih fun d' hd' => hdeeds d' (by simp [hd']))

variable [LawfulBEq κ]

/-- An update on the right touches the pairs that have a key under which it changed the items. -/
theorem rereads_right [LawfulBEq (I r)] [Arranging (I r)] (hst : J.Ready rules st)
    (hread : J.PairsRead rules st) {d : Deed K V I A} (hd : d.Of r) {depth : Nat}
    (hdepth : 4 ≤ depth)
    {pairs : List (I l × JoinPair (A l) (A r))}
    (hrun : (J.pairs.items.run rules depth (d.apply inputs rules st)).1 = .ok pairs) :
    J.Rereads rules (J.Differs st (d.apply inputs rules st)) st
      (J.pairs.items.run rules depth (d.apply inputs rules st)).2 := by
  have hl : ¬ d.Of l := fun hl => h.sides_ne (hl.unique hd)
  have hset : J.right.Rewritten st (d.apply inputs rules st) := by
    rw [h.right_eq]
    exact hd.rewritten (h.right_eq ▸ h.right_faithful) hst.idle
  have hleft := h.left_untouched hd.apart hl hst.idle
  have hdated : Dated st := hst.rests.rest.dated
  refine hst.rereads h.toPlaced hread (h.ready_apply hd.apart hst) hset.refreshed hset.inputs hdepth
    hrun (fun i _ => ?_) fun i hi hold => ?_
  · exact (or_iff_right (hdated.not_renewed (hleft _))).symm
  · rw [J.left.valueOf_congr (Family.input?_congr (hleft .keys))] at hi
    exact absurd hi hold

/-- An update on the left touches the pairs of the items that it changed, if those that come in have
values that they did not have. -/
theorem rereads_left [PartialEquivBEq (A l)] (hst : J.Ready rules st)
    (hread : J.PairsRead rules st) {d : Deed K V I A} (hd : d.Of l)
    (hnew : ∀ i ∈ J.left.valueOf .keys (d.apply inputs rules st), i ∉ J.left.valueOf .keys st →
      (J.left.valueOf (.item i) st ==
        J.left.valueOf (.item i) (d.apply inputs rules st)) = false)
    {depth : Nat} (hdepth : 4 ≤ depth) {pairs : List (I l × JoinPair (A l) (A r))}
    (hrun : (J.pairs.items.run rules depth (d.apply inputs rules st)).1 = .ok pairs) :
    J.Rereads rules
      (fun i => (J.left.valueOf (.item i) st ==
        J.left.valueOf (.item i) (d.apply inputs rules st)) = false)
      st (J.pairs.items.run rules depth (d.apply inputs rules st)).2 := by
  have hr : ¬ d.Of r := fun hr => h.sides_ne (hd.unique hr)
  have hset : J.left.Rewritten st (d.apply inputs rules st) := by
    rw [h.left_eq]
    exact hd.rewritten (h.left_eq ▸ h.left_faithful) hst.idle
  have hright := h.right_untouched hd.apart hr hst.idle
  have hrenewed (i : I l) (hi : i ∈ J.left.valueOf .keys (d.apply inputs rules st)) :=
    h.left_faithful.renewed_iff_of_rewritten hset hst.rests.rest.dated hi fun hunset =>
      hnew i hi fun hold => hst.stored i hold hunset
  refine hst.rereads h.toPlaced hread (h.ready_apply hd.apart hst) hset.refreshed hset.inputs hdepth
    hrun (fun i hi => ?_) fun i hi hold => (hrenewed i hi).mpr (hnew i hi hold)
  rw [hrenewed i hi]
  refine (or_iff_left ?_).symm
  rintro ⟨a, -, k, -, hdiffers⟩
  rw [tuple_congr hright, BEq.rfl] at hdiffers
  cases hdiffers

end Over

/-- To read all pairs of a join over two input streams again costs what a change touches. Nothing is
executed for them until one of the two streams is updated or memos are dropped. After an update on
the right the pairs are executed that have a key under which there are other items than before;
after one on the left, those of the items it changed. -/
structure Selective (inputs : (s : S) → Family K V (InputNode.Value (I s) (A s)))
    (rules : Rules K V) (J : Join K V (I l) (I r) κ (A l) (A r)) (st : Store K V) : Prop where
  completes : st.token = none → ∀ depth, 4 ≤ depth →
    ∃ pairs, (J.pairs.items.run rules depth st).1 = .ok pairs
  /-- A completed read reads all pairs, if none of the join's nodes was found valid since an input
  changed last, or else if nothing is missing that the pairs rest on. -/
  reads : ∀ depth pairs, 4 ≤ depth → (J.pairs.items.run rules depth st).1 = .ok pairs →
    (∀ n m, st.memos.get? (J.nodes.key n) = some m → m.verifiedAt < st.revision) ∨
      (∀ i ∈ J.left.valueOf .keys st,
        Intact rules (J.pairs.items.run rules depth st).2 (J.nodes.key (.item i))) →
    J.PairsRead rules (J.pairs.items.run rules depth st).2
  kept : J.PairsRead rules st → ∀ d : Deed K V I A, d.Apart inputs → ¬ d.Of l → ¬ d.Of r →
    d ≠ .other (.leave true) → J.PairsRead rules (d.apply inputs rules st)
  idle : J.PairsRead rules st → ∀ depth pairs, 4 ≤ depth →
    (J.pairs.items.run rules depth st).1 = .ok pairs →
      J.Rereads rules (fun _ => False) st (J.pairs.items.run rules depth st).2
  right : J.PairsRead rules st → ∀ d : Deed K V I A, d.Of r → ∀ depth pairs, 4 ≤ depth →
    (J.pairs.items.run rules depth (d.apply inputs rules st)).1 = .ok pairs →
      J.Rereads rules (J.Differs st (d.apply inputs rules st)) st
        (J.pairs.items.run rules depth (d.apply inputs rules st)).2
  /-- Items that come in have values that they did not have. -/
  left : J.PairsRead rules st → ∀ d : Deed K V I A, d.Of l →
    (∀ i ∈ J.left.valueOf .keys (d.apply inputs rules st), i ∉ J.left.valueOf .keys st →
      (J.left.valueOf (.item i) st ==
        J.left.valueOf (.item i) (d.apply inputs rules st)) = false) →
    ∀ depth pairs, 4 ≤ depth →
      (J.pairs.items.run rules depth (d.apply inputs rules st)).1 = .ok pairs →
        J.Rereads rules
          (fun i => (J.left.valueOf (.item i) st ==
            J.left.valueOf (.item i) (d.apply inputs rules st)) = false)
          st (J.pairs.items.run rules depth (d.apply inputs rules st)).2

/-- Whatever was done to a graph, a change on one side of a join touches only its pairs. -/
theorem Over.selective [EquivBEq (A r)] [PartialEquivBEq (A l)] [LawfulBEq κ] [LawfulBEq (I l)]
    [LawfulBEq (I r)] [Arranging (I l)] [Arranging (I r)]
    {J : Join K V (I l) (I r) κ (A l) (A r)} (h : J.Over inputs rules)
    {deeds : List (Deed K V I A)} (hdeeds : ∀ d ∈ deeds, d.Apart inputs) :
    J.Selective inputs rules (reachBy inputs rules deeds) where
  completes htoken _ hdepth := (h.ready hdeeds).completes h.toPlaced htoken hdepth
  reads _ _ hdepth hrun hor := hor.elim
    ((h.ready hdeeds).pairsRead_of_stale h.toPlaced hdepth hrun)
    ((h.ready hdeeds).pairsRead_of_intact h.toPlaced hdepth hrun)
  kept hread _ hd hl hr hdrop := h.pairsRead_apply (h.ready hdeeds) hread hd hl hr hdrop
  idle hread _ _ hdepth hrun := by
    have hst := h.ready hdeeds
    have hrenewed (k : K) : ¬ Renewed (reachBy inputs rules deeds) (reachBy inputs rules deeds) k :=
      hst.rests.rest.dated.not_renewed rfl
    refine hst.rereads h.toPlaced hread hst ⟨rfl, rfl, Nat.le_refl _, fun _ _ => rfl⟩
      (fun _ => .inl rfl) hdepth hrun (fun i _ => ?_) fun i hi hold => absurd hi hold
    refine iff_of_false id ?_
    rintro (hno | ⟨a, -, k, -, hdiffers⟩)
    · exact hrenewed _ hno
    · rw [BEq.rfl] at hdiffers
      cases hdiffers
  right hread _ hd _ _ hdepth hrun := h.rereads_right (h.ready hdeeds) hread hd hdepth hrun
  left hread _ hd hnew _ _ hdepth hrun :=
    h.rereads_left (h.ready hdeeds) hread hd hnew hdepth hrun

end
end Join

/-- Places of a board, in order. -/
inductive Slot
  | first
  | second
  deriving DecidableEq

/-- Menus in slots, each with the colours of its wires; wires in slots, each with its colour; and
each menu with its wires. -/
inductive BoardNode
  | menu (n : InputNode Slot)
  | wire (n : InputNode Slot)
  | pair (n : JoinNode Slot Nat)
  deriving DecidableEq

/-- The two sides of a board. -/
inductive Side
  | menus
  | wires

namespace BoardNode

instance : ItemKey Slot where
  label
    | .first => "first"
    | .second => "second"
  sorted keys := .ok ([.first, .second].filter fun i => keys.contains i)

instance : Arranging Slot where
  mem_sorted _ h i := by
    obtain rfl := Except.ok.inj h
    cases i <;> simp
  sorted_congr _ _ hmem h := by
    obtain rfl := Except.ok.inj h
    simp [ItemKey.sorted, hmem]

abbrev Item : Side → Type
  | .menus => List Nat
  | .wires => Nat × Nat

abbrev Value : BoardNode → Type
  | .menu n => n.Value Slot (List Nat)
  | .wire n => n.Value Slot (Nat × Nat)
  | .pair n => n.Value Slot Nat (List Nat) (Nat × Nat)

instance : Node BoardNode where
  queryName _ := "board"
  text _ := "board"

instance : (s : Side) → BEq (Item s)
  | .menus => inferInstanceAs (BEq (List Nat))
  | .wires => inferInstanceAs (BEq (Nat × Nat))

instance : (s : Side) → LawfulBEq (Item s)
  | .menus => inferInstanceAs (LawfulBEq (List Nat))
  | .wires => inferInstanceAs (LawfulBEq (Nat × Nat))

instance : (k : BoardNode) → BEq k.Value
  | .menu .keys => inferInstanceAs (BEq (List Slot))
  | .menu (.item _) => inferInstanceAs (BEq (Option (List Nat)))
  | .wire .keys => inferInstanceAs (BEq (List Slot))
  | .wire (.item _) => inferInstanceAs (BEq (Option (Nat × Nat)))
  | .pair .index => inferInstanceAs (BEq (List (Nat × List (Nat × Nat))))
  | .pair (.lookup _) => inferInstanceAs (BEq (List (Nat × Nat)))
  | .pair (.item _) => inferInstanceAs (BEq (Option (JoinPair (List Nat) (Nat × Nat))))

instance : (k : BoardNode) → Nonempty k.Value
  | .menu n => ⟨n.absent⟩
  | .wire n => ⟨n.absent⟩
  | .pair .index => ⟨[]⟩
  | .pair (.lookup _) => ⟨[]⟩
  | .pair (.item _) => ⟨none⟩

def inputs : (s : Side) → Family BoardNode Value (InputNode.Value Slot (Item s))
  | .menus => { key := .menu, encode := fun _ w => w, decode := fun _ v => .ok v }
  | .wires => { key := .wire, encode := fun _ w => w, decode := fun _ v => .ok v }

def join : Join BoardNode Value Slot Slot Nat (Item .menus) (Item .wires) where
  left := inputs .menus
  right := inputs .wires
  nodes := { key := .pair, encode := fun _ w => w, decode := fun _ v => .ok v }
  leftKeys colours := colours
  rightKey wire := wire.1

def rules : Rules BoardNode Value
  | .menu n => .input n.absent
  | .wire n => .input n.absent
  | .pair n => .query (join.nodes.rule n (join.program n))

theorem join_over : join.Over inputs rules where
  left_faithful := {
    injective := fun _ _ h => BoardNode.menu.inj h
    decode := fun _ v => ⟨v, rfl, rfl⟩
    encode := fun _ _ => rfl
    keys_beq := fun _ _ => rfl
    item_beq := fun _ _ _ => rfl }
  right_faithful := {
    injective := fun _ _ h => BoardNode.wire.inj h
    decode := fun _ v => ⟨v, rfl, rfl⟩
    encode := fun _ _ => rfl
    keys_beq := fun _ _ => rfl
    item_beq := fun _ _ _ => rfl }
  apart _ _ h := by cases h
  left_input _ := rfl
  right_input _ := rfl
  exact_nodes := ⟨fun _ v => ⟨v, rfl⟩, fun _ _ => rfl⟩
  injective _ _ h := BoardNode.pair.inj h
  rule _ := rfl
  index_beq v w a b h ha hb k := by
    cases ha
    cases hb
    obtain rfl : v = w := eq_of_beq (α := List (Nat × List (Nat × Nat))) h
    exact BEq.rfl
  lookup_beq _ _ _ _ _ ha hb := by
    cases ha
    cases hb
    rfl
  left_eq := rfl
  right_eq := rfl
  streams_apart s s' n n' h := by cases s <;> cases s' <;> first | rfl | cases h

abbrev Step := Deed BoardNode Value (fun _ : Side => Slot) Item

def reading : Step := .other (.run 4 (join.pairs.items.bind fun _ => .done ()))

/-- Two menus share a colour, and there is a wire of each of two colours. All pairs are read. -/
def wired : List Step :=
  [.replace .menus [(.first, some [0]), (.second, some [0, 1])],
    .replace .wires [(.first, some (0, 5)), (.second, some (1, 6))], reading]

/-- There is one menu and one wire, and their pair is read. -/
def single : List Step :=
  [.replace .menus [(.first, some [0])], .replace .wires [(.first, some (0, 5))], reading]

/-- Then a wire of another colour comes in, and a pass is cancelled in which all pairs are read;
they are read again after it. -/
def dropped : List Step :=
  single ++ [.update .wires [(.second, some (2, 8))] [],
    .other (.enter (some { generation := 1 })), reading, .other (.leave true), reading]

theorem apart_wired : ∀ d ∈ wired, d.Apart inputs := by
  intro d hd
  simp only [wired, List.mem_cons, List.not_mem_nil, or_false] at hd
  rcases hd with rfl | rfl | rfl <;> trivial

end BoardNode

/-- The pairs of two menus have been read, which is such a state. -/
theorem selective_wired : (∀ d ∈ BoardNode.wired, d.Apart BoardNode.inputs) ∧
    BoardNode.join.Selective BoardNode.inputs BoardNode.rules
      (reachBy BoardNode.inputs BoardNode.rules BoardNode.wired) ∧
    BoardNode.join.PairsRead BoardNode.rules
      (reachBy BoardNode.inputs BoardNode.rules BoardNode.wired) := by
  have hunread : ∀ d ∈ BoardNode.wired.take 2, d.Apart BoardNode.inputs :=
    fun d hd => BoardNode.apart_wired d (List.mem_of_mem_take hd)
  refine ⟨BoardNode.apart_wired, BoardNode.join_over.selective BoardNode.apart_wired, ?_⟩
  exact (BoardNode.join_over.selective hunread).reads 4 _ (Nat.le_refl 4) rfl
    (.inl fun n m hm => by cases n <;> cases hm)

/-- A new wire of a colour that one of two menus has leads to a new read of this menu only. -/
example : (reachBy BoardNode.inputs BoardNode.rules (BoardNode.wired ++
      [.update .wires [(.second, some (1, 7))] [], BoardNode.reading])).executed =
    [.pair (.item .second), .pair (.lookup 1), .pair (.lookup 0), .pair .index] ++
      (reachBy BoardNode.inputs BoardNode.rules BoardNode.wired).executed := rfl

/-- Where a cancelled pass has dropped the index and the lookups, a pair is executed although the
wires of its menu are as before, and so is one that comes in without a menu, as it was before. -/
theorem pair_executed_untouched :
    (∃ st, BoardNode.join.pairs.items.run BoardNode.rules 4
        (reachBy BoardNode.inputs BoardNode.rules BoardNode.dropped) =
          (.ok [(.first, ⟨[0], [(0, 5)]⟩)], st) ∧
      ∃ st', BoardNode.join.pairs.items.run BoardNode.rules 4
          ((Deed.update .wires [(.second, some (2, 9))] [] : BoardNode.Step).apply
            BoardNode.inputs BoardNode.rules st) = (.ok [(.first, ⟨[0], [(0, 5)]⟩)], st') ∧
        BoardNode.join.tuple st 0 = [(0, 5)] ∧ BoardNode.join.tuple st' 0 = [(0, 5)] ∧
        BoardNode.join.left.valueOf (.item .first) st' = some [0] ∧
        st'.executed = [.pair (.item .first), .pair (.lookup 0), .pair .index] ++ st.executed) ∧
    ∃ st, BoardNode.join.pairs.items.run BoardNode.rules 4
        (reachBy BoardNode.inputs BoardNode.rules BoardNode.single) =
          (.ok [(.first, ⟨[0], [(0, 5)]⟩)], st) ∧
      ∃ st', BoardNode.join.pairs.items.run BoardNode.rules 4
          ((Deed.update .menus [(.second, none)] [] : BoardNode.Step).apply
            BoardNode.inputs BoardNode.rules st) = (.ok [(.first, ⟨[0], [(0, 5)]⟩)], st') ∧
        BoardNode.join.left.valueOf (.item .second) st = none ∧
        BoardNode.join.left.valueOf (.item .second) st' = none ∧
        st'.executed = [.pair (.item .second)] ++ st.executed :=
  ⟨⟨_, rfl, _, rfl, rfl, rfl, rfl, rfl⟩, _, rfl, _, rfl, rfl, rfl, rfl⟩

end SceneCodegen.Graph
