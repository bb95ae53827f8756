import SceneCodegen.Proofs.Graph.Exchanges
import SceneCodegen.Proofs.Graph.Joining

/-!
# Reading the pairs of a join again

All pairs of a join were read, and then inputs were changed. Reading all pairs again executes those
of an item on the left that was changed, and those of one that has a key under which there are other
items on the right than before. All others are served from memory.
-/
namespace SceneCodegen.Graph

variable {K : Type} {V : K → Type} {ι ι₁ ι₂ κ α β : Type}

namespace Family.Faithful
variable [BEq K] [LawfulBEq K] [∀ k, BEq (V k)] [BEq ι] [BEq α]
  {f : Family K V (InputNode.Value ι α)} {s : Store K V} {rules : Rules K V}

theorem reads (hf : f.Faithful) {n : InputNode ι}
    (hrule : rules (f.key n) = .input (f.encode n n.absent)) (hidle : s.active = []) :
    Reads rules s (f.get n) (f.valueOf n s) := by
  refine Reads.bind (.get hrule hidle) ?_
  rw [← hf.valueOf_eq, hf.encode]
  exact fun _ => rfl

end Family.Faithful

namespace Join

section
variable (J : Join K V ι₁ ι₂ κ α β)

def pairsOf (keys : List ι₁) : Program K V (List (ι₁ × JoinPair α β)) := do
  let read (i : ι₁) : Program K V (Option (ι₁ × JoinPair α β)) := do
    return (← J.nodes.get (.item i)).map (i, ·)
  return (← keys.mapM read).filterMap id

def IsPair (keys : List ι₁) (d : K) : Prop := ∃ i ∈ keys, J.nodes.key (.item i) = d

/-- All nodes but the pairs for other keys. -/
def Amid (keys : List ι₁) (d : K) : Prop := ∀ i, J.nodes.key (.item i) = d → i ∈ keys

/-- A pair has a key under which the items on the right differ between stores. -/
def Differs [BEq K] [LawfulBEq K] [BEq κ] [BEq β] (s s' : Store K V) (i : ι₁) : Prop :=
  ∃ a, J.left.valueOf (.item i) s = some a ∧
    ∃ k ∈ J.leftKeys a, (J.tuple s k == J.tuple s' k) = false

/-- What is read for a pair whose item on the left is the one given. -/
def Needs (x : Option α) (i : ι₁) (d : K) : Prop :=
  d = J.left.key (.item i) ∨ ∃ a, x = some a ∧ ∃ k ∈ J.leftKeys a, d = J.nodes.key (.lookup k)

/-- All pairs were read, since when nothing changed that they rest on and nothing of it was
dropped. -/
def PairsRead [BEq K] [LawfulBEq K] (rules : Rules K V) (s : Store K V) : Prop :=
  ∃ r, r ≤ s.revision ∧ ∀ i ∈ J.left.valueOf .keys s, Lasts rules s r (J.nodes.key (.item i))

end

variable [BEq K] [LawfulBEq K] [BEq κ] [BEq β] {J : Join K V ι₁ ι₂ κ α β}
  [BEq ι₁] [BEq ι₂] [BEq α] [∀ k, BEq (V k)] {rules : Rules K V} {s s' t : Store K V} {r : Nat}
  {i : ι₁} {keys : List ι₁} {depth : Nat}

namespace Placed
variable (h : J.Placed rules)
include h

/-- To read the pairs is to read those for the present keys. -/
theorem run_pairs (hidle : s.active = []) (depth : Nat) : J.pairs.items.run rules depth s =
    (J.pairsOf (J.left.valueOf .keys s)).run rules depth s :=
  (h.left_faithful.reads (h.left_input .keys) hidle).run_bind _ depth

omit [BEq K] [LawfulBEq K] in
theorem pairsOf_heeds {Q : (k : K) → V k → Prop} (keys : List ι₁) :
    (J.pairsOf keys).Heeds (J.IsPair keys) Q (Unfailing K) Anything := by
  refine (Program.Heeds.mapM (R := Anything) fun i hi => ?_).bind fun _ _ => .done trivial
  have hget := Family.heeds_any h.exact_nodes.total (.item i) (Q := Q) (E := Unfailing K)
  exact (hget.widen fun d hd => ⟨i, hi, hd.symm⟩).bind fun _ _ => .done trivial

omit [BEq K] [LawfulBEq K] in
theorem pairsOf_safe (keys : List ι₁) (hdepth : 4 ≤ depth) :
    (J.pairsOf keys).Safe (J.level · < depth) (Unfailing K) := by
  refine ((h.pairsOf_heeds (Q := fun _ _ => True) keys).safe fun _ _ => trivial).mono ?_
    fun _ h => h
  rintro d ⟨i, -, rfl⟩
  rw [h.level_node]
  exact hdepth

omit [BEq K] [LawfulBEq K] [BEq κ] [BEq β] [BEq ι₁] [BEq ι₂] [BEq α] [∀ k, BEq (V k)] h in
theorem pairsOf_within (J : Join K V ι₁ ι₂ κ α β) (keys : List ι₁) :
    (J.pairsOf keys).Within (J.IsPair keys) := by
  refine (Program.Within.mapM fun i hi => ?_).bind fun _ => .done _
  refine Program.Within.bind ?_ fun _ => .done _
  refine (Program.within_get (show J.IsPair keys (J.nodes.key (.item i)) from ⟨i, hi, rfl⟩)).bind
    fun v => ?_
  cases J.nodes.decode (.item i) v with
  | ok w => exact .done w
  | error e => exact .fail e

omit [BEq K] [LawfulBEq K] in
theorem pairsOf_demands {Q : (k : K) → V k → Prop} (hi : i ∈ keys) :
    (J.pairsOf keys).Demands Q (J.nodes.key (.item i)) := by
  refine Program.Demands.bind (.mapM (T := fun _ => True) (E := Unfailing K) (R := Anything)
    (fun j _ => ?_) hi ?_) _
  · have hget := Family.heeds_any h.exact_nodes.total (.item j) (Q := Q) (E := Unfailing K)
    exact (hget.widen fun _ _ => trivial).bind fun _ _ => .done trivial
  · exact ((Program.demands_get _).bind _).bind _

section
variable {Q : (k : K) → V k → Prop} {x : Option α}
  (hQ : ∀ v, Q (J.left.key (.item i)) v → J.left.decode (.item i) v = .ok x)
include hQ

omit [BEq K] [LawfulBEq K] in
theorem left_heeds : (J.left.get (.item i)).Heeds (J.Needs x i) Q (Unfailing K) (· = x) := by
  have hget : (J.left.get (.item i)).Heeds (· = J.left.key (.item i)) Q (Unfailing K) (· = x) := by
    refine Family.heeds_get h.left_faithful.total fun v w hv hw => ?_
    rw [hQ v hv] at hw
    exact (Except.ok.inj hw).symm
  exact hget.widen fun d hd => .inl hd

variable [LawfulBEq κ]

omit [BEq K] [LawfulBEq K] hQ in
theorem lookups_heed {a : α} (hx : x = some a) (k : κ) (hk : k ∈ (J.leftKeys a).eraseDups) :
    (J.nodes.get (.lookup k)).Heeds (J.Needs x i) Q (Unfailing K) (Anything (α := List β)) :=
  (Family.heeds_any h.exact_nodes.total (.lookup k)).widen fun _ hd =>
    .inr ⟨a, hx, k, List.mem_eraseDups.mp hk, hd⟩

omit [BEq K] [LawfulBEq K] in
theorem item_heeds : (J.nodes.rule (.item i) (J.program (.item i))).Heeds (J.Needs x i) Q
    (Unfailing K) Anything := by
  refine Program.Heeds.bind (P := Anything) ?_ fun _ _ => .done trivial
  refine (h.left_heeds hQ).bind fun y hy => ?_
  subst hy
  cases y with
  | none => exact .done trivial
  | some a =>
    exact (Program.Heeds.mapM (h.lookups_heed rfl)).bind fun _ _ => .done trivial

omit [BEq K] [LawfulBEq K] in
theorem item_demands {d : K} (hd : J.Needs x i d) :
    (J.nodes.rule (.item i) (J.program (.item i))).Demands Q d := by
  refine Program.Demands.bind ?_ _
  rcases hd with rfl | ⟨a, rfl, k, hk, rfl⟩
  · exact ((Program.demands_get _).bind _).bind _
  · refine .after (h.left_heeds hQ) fun y hy => ?_
    subst hy
    have hmem : k ∈ (J.leftKeys a).eraseDups := List.mem_eraseDups.mpr hk
    refine Program.Demands.bind (.mapM (h.lookups_heed (i := i) rfl) hmem ?_) _
    exact (Program.demands_get _).bind _

end
end Placed

namespace Alone
variable [EquivBEq β] [LawfulBEq κ] (h : J.Alone rules)
include h

omit [LawfulBEq κ] in
/-- The item on the left is read for each pair. -/
theorem left_mem_reads (hs : AtRest rules J.likeness s) {m : Memo K (V (J.nodes.key (.item i)))}
    (hm : s.memos.get? (J.nodes.key (.item i)) = some m) : J.left.key (.item i) ∈ m.reads := by
  obtain ⟨p, below, ks, v, hp, hrun, hreads⟩ := hs.recorded hm
  rw [h.rule] at hp
  cases hp
  have hd : (J.program (.item i)).Demands (fun _ => Anything) (J.left.key (.item i)) :=
    ((Program.demands_get _).bind _).bind _
  exact (hreads _).mpr ((hd.bind _).mem_reads (fun _ _ _ => trivial) hrun)

omit [LawfulBEq κ] in
/-- An item on the left settled to what it is now since it was changed last. -/
theorem decode_settled {past : Nat → Inputs K V} (hs : Sound rules J.likeness past s)
    (hl : Lasts rules s r (J.left.key (.item i))) {r' : Nat} (hr : r ≤ r') (hr' : r' ≤ s.revision)
    {n : Nat} {v : V (J.left.key (.item i))}
    (hv : settle rules (past r') n (J.left.key (.item i)) = .ok v) :
    J.left.decode (.item i) v = .ok (J.left.valueOf (.item i) s) := by
  have hc := hl.changedAt_input_le (h.left_input (.item i))
  rw [settle_input (h.left_input (.item i)), hs.input_since hr' (Nat.le_trans hc hr)] at hv
  cases hv
  rw [← h.left_faithful.encode (.item i) (J.left.valueOf (.item i) s), h.left_faithful.valueOf_eq,
    Store.input?]
  cases s.inputs.get? (J.left.key (.item i)) <;> rfl

/-- For a lasting pair the present item on the left was read, and lookups of all its keys. -/
theorem mem_reads_iff (hs : AtRest rules J.likeness s)
    (hl : Lasts rules s r (J.nodes.key (.item i))) {m : Memo K (V (J.nodes.key (.item i)))}
    (hm : s.memos.get? (J.nodes.key (.item i)) = some m) {d : K} :
    d ∈ m.reads ↔ J.Needs (J.left.valueOf (.item i) s) i d := by
  obtain ⟨x, hx, -, hr, hlasts⟩ := hl.exists_memo (h.rule (.item i))
  rw [hm] at hx
  cases hx
  have hleft := hlasts _ (h.left_mem_reads hs hm)
  obtain ⟨past, hsound⟩ := hs.exists_sound
  obtain ⟨p, n, ks, v, hp, hrun, -, hreads, -⟩ := (hsound.memos _ m hm).exists_run
  rw [h.rule] at hp
  cases hp
  have hQ (v) : (fun d w => settle rules (past m.verifiedAt) n d = .ok w) (J.left.key (.item i)) v →
      J.left.decode (.item i) v = .ok (J.left.valueOf (.item i) s) :=
    h.decode_settled hsound hleft hr (hsound.memos _ m hm).le_revision
  rw [hreads, List.mem_eraseDups]
  constructor
  · exact ((h.item_heeds hQ).settleWith (fun _ _ _ hv => hv) hrun).1 d
  · exact fun hd => (h.item_demands hQ hd).mem_reads (fun _ _ hv => hv) hrun

omit [EquivBEq β] in
/-- A lookup settles to the items on the right that have its key. -/
theorem settle_lookup (s : Store K V) (k : κ) {n : Nat} (hn : 2 < n) :
    settle rules s.input? n (J.nodes.key (.lookup k)) =
      .ok (J.nodes.encode (.lookup k) (J.tuple s k)) := by
  have hsettles (d : K) : ∃ v, settle rules s.input? (J.level d + 1) d = .ok v :=
    h.leveled.settles (Nat.lt_succ_self _)
  obtain ⟨value, hvalue⟩ := Classical.skolem.mp hsettles
  have hall : Valuation rules s.input? value := .of_settles fun d => ⟨_, hvalue d⟩
  obtain ⟨w, hw, hrule⟩ := h.exact_nodes.exists_holds hall h.rule
  have hright : J.right.Holds value fun n => J.right.valueOf n s := fun n => by
    refine (Program.ComesTo.get _).bind ?_
    rw [hall.input _ _ (h.right_input n), ← h.right_faithful.valueOf_eq, h.right_faithful.encode]
    exact .done _
  have hlookup : w (.lookup k) = J.tuple s k :=
    Family.lookup_join hw hrule (Family.lists_input hright) (fun _ => .done _) k
  have hnode : value (J.nodes.key (.lookup k)) = J.nodes.encode (.lookup k) (w (.lookup k)) :=
    (hall.query _ _ (h.rule _)).unique ((hrule (.lookup k)).map _)
  rw [← hlookup, ← hnode]
  refine settle_ok_mono ?_ (hvalue _)
  rw [h.level_node]
  exact hn

/-- The memo of a lasting lookup holds the items that there are under its key now. -/
theorem lookup_beq_tuple (hs : AtRest rules J.likeness s) {k : κ}
    (hl : Lasts rules s r (J.nodes.key (.lookup k))) {m : Memo K (V (J.nodes.key (.lookup k)))}
    (hm : s.memos.get? (J.nodes.key (.lookup k)) = some m) :
    ∃ b, J.nodes.decode (.lookup k) m.value = .ok b ∧ (J.tuple s k == b) = true := by
  obtain ⟨x, hx, -, hr, -⟩ := hl.exists_memo (h.rule (.lookup k))
  rw [hm] at hx
  cases hx
  obtain ⟨past, hsound⟩ := hs.exists_sound
  obtain ⟨n, v, hv, hlike⟩ := hsound.settles_memo hm
  have hdeep : J.level (J.nodes.key (.lookup k)) < n + 3 := by
    rw [h.level_node]
    exact Nat.lt_of_lt_of_le (Nat.lt_succ_self 2) (Nat.le_add_left 3 n)
  have hnow := (hl.settle_eq h.leveled hsound hr (hsound.memos _ m hm).le_revision hdeep).trans
    (h.settle_lookup s k (Nat.le_add_left 3 n))
  obtain rfl := settle_ok_unique hv hnow
  obtain ⟨a, b, ha, hb, hab⟩ := counts_of_like hlike
  obtain rfl := Except.ok.inj ((h.exact_nodes.encode _ _).symm.trans ha)
  exact ⟨b, hb, hab⟩

omit [BEq K] [LawfulBEq K] [EquivBEq β] [LawfulBEq κ] in
/-- For no node is a pair read. -/
theorem steady_amid (keys : List ι₁) (inputs : Inputs K V) :
    Steady rules inputs (J.Amid keys) := by
  have hnodes : Heedful rules inputs (J.Amid keys) fun _ _ => True := by
    refine ⟨fun _ _ _ _ => trivial, fun k p _ hk => ?_⟩
    obtain ⟨n, rfl⟩ := h.query k p hk
    rw [h.rule] at hk
    cases hk
    refine Program.Heeds.bind (P := Anything) ((h.program_heeds n).widen fun d hd i hi => ?_)
      fun _ _ => .done trivial
    subst hi
    cases n with
    | index => rcases hd with hd | ⟨j, -, hd⟩ <;> exact absurd hd (h.right_ne _ _)
    | lookup key => cases h.injective hd
    | item j =>
      rcases hd with hd | ⟨key, hd⟩
      · exact absurd hd (h.left_ne _ _)
      · cases h.injective hd
  exact hnodes.steady h.leveled

end Alone

/-- The pairs for some keys were read after inputs were changed, which executed some queries. -/
structure Rereading (J : Join K V ι₁ ι₂ κ α β) [EquivBEq β] (rules : Rules K V) (keys : List ι₁)
    (ks : List K) (s t s' : Store K V) : Prop where
  rest : AtRest rules J.likeness s
  rest' : AtRest rules J.likeness s'
  refreshed : Refreshed s t
  inputs : ∀ d, t.inputs.get? d = s.inputs.get? d ∨ Renewed s t d
  rose : s.revision < t.revision
  visit : Visit (strictly rules) [] ks t s'
  rooted : Rooted rules s'
  rerun : Rerun rules (J.Amid keys) (J.IsPair keys) ks s s'

namespace Alone
variable [Node K] [EquivBEq β] [LawfulBEq κ] (h : J.Alone rules)
include h

omit [LawfulBEq κ] in
theorem exists_rereading (hs : AtRest rules J.likeness s) (ht : Refreshed s t)
    (hinputs : ∀ d, t.inputs.get? d = s.inputs.get? d ∨ Renewed s t d)
    (hrose : s.revision < t.revision) (hrest : AtRest rules J.likeness t) (hdepth : 4 ≤ depth)
    {pairs : List (ι₁ × JoinPair α β)}
    (hrun : ((J.pairsOf keys).run rules depth t).1 = .ok pairs) :
    ∃ ks, Rereading J rules keys ks s t ((J.pairsOf keys).run rules depth t).2 := by
  have hpair (d : K) (hd : J.IsPair keys d) : J.Amid keys d := by
    obtain ⟨i, hi, rfl⟩ := hd
    intro j hj
    cases h.injective hj
    exact hi
  have hwithin := (Placed.pairsOf_within J keys).mono hpair
  have hsteady := h.steady_amid keys t.input?
  obtain ⟨⟨ks, hvisit⟩, hrooted, hgrounded⟩ := hrest.run_visits h.orderly h.leveled
    (h.pairsOf_safe keys hdepth) (ht.rooted_of_lt hs.tidy hrose) hrun
  have hrest' := (hrest.run h.orderly hsteady hwithin depth).1
  refine ⟨ks, hs, hrest', ht, hinputs, hrose, hvisit, hrooted, hvisit.rerun hs.tidy ht hrose
    hrest'.tidy (fun k hk => hrest.run_spares h.orderly hwithin hsteady hk) ?_⟩
  rintro d ⟨i, hi, rfl⟩
  exact hgrounded _ (h.pairsOf_demands hi)

end Alone

namespace Rereading
variable [EquivBEq β] [LawfulBEq κ] {ks : List K}
  (h : Rereading J rules keys ks s t s') (hJ : J.Alone rules)
include h hJ

/-- What a lookup gives that lasted is as new as the items under its key are other ones. -/
theorem lookup_cases {k : κ} (hl : Lasts rules s r (J.nodes.key (.lookup k)))
    {node : Stamped (V (J.nodes.key (.lookup k)))}
    (hn : Holds (strictly rules) s' (J.nodes.key (.lookup k)) node) :
    node.changedAt ≤ r ∧ (J.tuple s k == J.tuple s' k) = true ∨
      node.changedAt = t.revision ∧ (J.tuple s k == J.tuple s' k) = false := by
  obtain ⟨y, hy, hc, -⟩ := hl.exists_memo (hJ.rule (.lookup k))
  obtain ⟨a, ha, has⟩ := hJ.lookup_beq_tuple h.rest hl hy
  obtain ⟨b, hb, hbs⟩ : ∃ b, J.nodes.decode (.lookup k) node.value = .ok b ∧
      (J.tuple s' k == b) = true := by
    cases hn with
    | input hk _ =>
      rw [strictly_input_iff, hJ.rule] at hk
      cases hk
    | memo hm hv he =>
      subst he
      exact hJ.lookup_beq_tuple h.rest' (.of_grounded h.rest'.tidy h.rest'.dated
        (h.rooted _ _ hm hv)) hm
  have hsame : (J.tuple s k == J.tuple s' k) = (a == b) :=
    (BEq.congr_left has).trans (BEq.congr_right hbs)
  rw [hsame]
  have hyt : t.memos.get? (J.nodes.key (.lookup k)) = some y := by rw [h.refreshed.memos, hy]
  have htidy : Tidy (strictly rules) t := by
    refine Tidy.strictly ⟨?_, ?_, ?_⟩
    all_goals rw [h.refreshed.memos]
    · exact h.rest.tidy.query
    · exact h.rest.tidy.changed_le
    · exact fun d m hm => Nat.le_trans (h.rest.tidy.le_revision d m hm) h.refreshed.revision
  rcases h.visit.kept_or_changed htidy hyt hn with ⟨hkept, heq | hbeq⟩ | ⟨hnow, hdiffers⟩
  · rw [heq, ha] at hb
    cases hb
    exact .inl ⟨hkept ▸ hc, BEq.rfl⟩
  · rw [hJ.lookup_beq k _ _ a b ha hb] at hbeq
    exact .inl ⟨hkept ▸ hc, hbeq⟩
  · rw [hJ.lookup_beq k _ _ a b ha hb] at hdiffers
    exact .inr ⟨hnow, hdiffers⟩

/-- The pairs that are executed are those of items on the left that were changed, and those that
have a key under which there are other items on the right. -/
theorem item_mem_iff (hl : Lasts rules s r (J.nodes.key (.item i)))
    (hi : i ∈ keys) : J.nodes.key (.item i) ∈ ks ↔
      Renewed s t (J.left.key (.item i)) ∨ J.Differs s s' i := by
  obtain ⟨x, hx, -, hxr, hlasts⟩ := hl.exists_memo (hJ.rule (.item i))
  have hxt : t.memos.get? (J.nodes.key (.item i)) = some x := by rw [h.refreshed.memos, hx]
  have hreads {d : K} := hJ.mem_reads_iff h.rest hl hx (d := d)
  constructor
  · intro hks
    obtain ⟨-, first, d, rest, node, hsplit, -, hd, hlt⟩ := (h.visit.recomputed _ hks).1 x hxt
    have hmem : d ∈ x.reads := by simp [hsplit]
    rcases hreads.mp hmem with rfl | ⟨a, ha, k, hk, rfl⟩
    · obtain ⟨y, hy, rfl⟩ := exists_of_holds_input (hJ.left_input (.item i)) h.rest'.tidy hd hlt
      rw [h.visit.inputs] at hy
      rcases h.inputs (J.left.key (.item i)) with hsame | hrenewed
      · have hle := (hlasts _ hmem).changedAt_input_le (hJ.left_input (.item i))
        rw [← hsame, hy, Option.getD_some] at hle
        omega
      · exact .inl hrenewed
    · refine .inr ⟨a, ha, k, hk, ?_⟩
      rcases h.lookup_cases hJ (hlasts _ hmem) hd with ⟨hle, -⟩ | ⟨-, hdiffers⟩
      · omega
      · exact hdiffers
  · obtain ⟨m, hm, hv⟩ := (h.rerun.finished _ ⟨i, hi, rfl⟩).exists_memo (hJ.rule (.item i))
    rintro (hrenewed | ⟨a, ha, k, hk, hdiffers⟩)
    · rw [← renewed_congr (by rw [h.visit.inputs])] at hrenewed
      exact h.rerun.effect _ m hm hv _ (hJ.left_mem_reads h.rest' hm) _
        (hJ.left_input (.item i)) hrenewed
    · by_contra hks
      have hold := h.rest.tidy.le_revision _ x hx
      have hrose := h.rose
      have hrevision := h.visit.revision
      rcases h.visit.rested_of_not_mem hks with he | ⟨y, hy, -, -, hu⟩
      · rw [hxt, hm] at he
        cases he
        omega
      · rw [hxt] at hy
        cases hy
        have hmem := hreads.mpr (.inr ⟨a, ha, k, hk, rfl⟩)
        obtain ⟨node, hnode, hle⟩ := hu _ hmem
        rcases h.lookup_cases hJ (hlasts _ hmem) hnode with ⟨-, hsame⟩ | ⟨hnow, -⟩
        · rw [hdiffers] at hsame
          cases hsame
        · omega

omit [LawfulBEq κ] in
/-- What is executed are nodes of the join, and no pair for another key. -/
theorem exists_node {k : K} (hk : k ∈ ks) :
    ∃ n, J.nodes.key n = k ∧ ∀ i, J.nodes.key (.item i) = k → i ∈ keys := by
  obtain ⟨-, m, hm, -⟩ := h.visit.recomputed k hk
  obtain ⟨p, hp⟩ := h.rest'.tidy.query k m hm
  obtain ⟨n, rfl⟩ := hJ.query k p hp
  exact ⟨n, rfl, h.rerun.within _ hk⟩

omit [BEq ι₁] [BEq ι₂] [BEq α] [LawfulBEq κ] hJ in
/-- A pair that is not executed keeps its result. -/
theorem served {m : Memo K (V (J.nodes.key (.item i)))}
    (hm : s.memos.get? (J.nodes.key (.item i)) = some m) (hi : J.nodes.key (.item i) ∉ ks) :
    ∃ v, s'.memos.get? (J.nodes.key (.item i)) = some { m with verifiedAt := v } := by
  have hmt : t.memos.get? (J.nodes.key (.item i)) = some m := by rw [h.refreshed.memos, hm]
  rcases h.visit.rested_of_not_mem hi with he | ⟨x, hx, -, hx', -⟩
  · exact ⟨m.verifiedAt, he.trans hmt⟩
  · rw [hmt] at hx
    cases hx
    exact ⟨_, hx'⟩

end Rereading

/-- Of all pairs those were executed that were touched, and with them some lookups and at most once
the index; the other pairs were served from memory. -/
structure Rereads (J : Join K V ι₁ ι₂ κ α β) (rules : Rules K V) (touched : ι₁ → Prop)
    (s s' : Store K V) : Prop where
  executed : ∃ ks, s'.executed = ks ++ s.executed ∧ ks.Nodup ∧
    (∀ k ∈ ks, ∃ n, J.nodes.key n = k) ∧
    ∀ i, J.nodes.key (.item i) ∈ ks ↔ i ∈ J.left.valueOf .keys s' ∧ touched i
  served : ∀ i ∈ J.left.valueOf .keys s', ¬ touched i →
    ∃ m v, s.memos.get? (J.nodes.key (.item i)) = some m ∧
      s'.memos.get? (J.nodes.key (.item i)) = some { m with verifiedAt := v }
  again : J.PairsRead rules s'

omit [BEq κ] [BEq β] [BEq ι₁] [BEq ι₂] [BEq α] [∀ k, BEq (V k)] in
theorem valueOf_congr_inputs (hi : s'.inputs = s.inputs) (n : InputNode ι₁) :
    J.left.valueOf n s' = J.left.valueOf n s :=
  J.left.valueOf_congr (by rw [Store.input?, Store.input?, hi])

omit [BEq β] [BEq ι₁] [BEq ι₂] [BEq α] [∀ k, BEq (V k)] in
theorem tuple_congr
    (hi : ∀ n, s'.inputs.get? (J.right.key n) = s.inputs.get? (J.right.key n)) (k : κ) :
    J.tuple s' k = J.tuple s k := by
  have hlisting : J.right.listing s' = J.right.listing s := by
    simp only [Family.listing, J.right.valueOf_congr (Family.input?_congr (hi _))]
  rw [tuple, tuple, hlisting]

omit [BEq ι₁] [BEq ι₂] [BEq α] [∀ k, BEq (V k)] in
theorem differs_congr (hi : s'.inputs = t.inputs) : J.Differs s s' i ↔ J.Differs s t i := by
  have htuple (k : κ) : J.tuple s' k = J.tuple t k :=
    tuple_congr (fun n => by rw [hi]) k
  simp only [Differs, htuple]

/-- Where no input changed, no pair is executed. -/
theorem Placed.rereads_unchanged (h : J.Placed rules) (hidle : t.active = []) (ht : Refreshed s t)
    (hsame : t.revision = s.revision) (hr : r ≤ s.revision) {touched : ι₁ → Prop}
    (hl : ∀ i ∈ keys, Lasts rules s r (J.nodes.key (.item i)))
    (hkeys : J.left.valueOf .keys t = keys) (htouched : ∀ i ∈ keys, ¬ touched i) (depth : Nat) :
    J.Rereads rules touched s ((J.pairsOf keys).run rules depth t).2 := by
  have hlt (i : ι₁) (hi : i ∈ keys) : Lasts rules t r (J.nodes.key (.item i)) := by
    refine (hl i hi).of_closed (C := fun _ => True) (fun _ _ _ _ _ _ => trivial) (fun _ _ => rfl)
      (fun k _ => by rw [ht.memos]) (fun k absent _ hk hlk => ?_) trivial
    rw [ht.inputs hsame k]
    exact hlk.changedAt_input_le hk
  have hrt : r ≤ t.revision := hsame ▸ hr
  have hupholds := run_upholds rules depth (J.pairsOf keys) hrt
  have hexecuted := (Placed.pairsOf_within J keys).run_lasting (fun d hd => by
    obtain ⟨i, hi, rfl⟩ := hd
    exact hlt i hi) hrt hidle depth
  have hkeys' := (valueOf_congr_inputs (J := J) hupholds.inputs .keys).trans hkeys
  refine ⟨⟨[], hexecuted.trans ht.executed, List.nodup_nil, by simp, fun i => ?_⟩, ?_, r, ?_, ?_⟩
  · rw [hkeys']
    exact ⟨fun hi => (nomatch hi), fun hi => absurd hi.2 (htouched i hi.1)⟩
  · rw [hkeys']
    intro i hi _
    obtain ⟨m, hm, -⟩ := (hl i hi).exists_memo (h.rule (.item i))
    obtain ⟨v, -, hm'⟩ := hupholds.memos _ _ m (h.rule (.item i)) (hlt i hi) (by rw [ht.memos, hm])
    exact ⟨m, v, hm, hm'⟩
  · rw [hupholds.revision]
    exact hrt
  · rw [hkeys']
    exact fun i hi => hupholds.lasts (hlt i hi)

/-- After inputs were changed, reading all pairs again executes those of items on the left that were
changed or have a key under which the items on the right differ. -/
theorem Alone.rereads [Node K] [EquivBEq β] [LawfulBEq κ] (h : J.Alone rules)
    (hs : AtRest rules J.likeness s) (hread : J.PairsRead rules s) (ht : Refreshed s t)
    (hinputs : ∀ d, t.inputs.get? d = s.inputs.get? d ∨ Renewed s t d)
    (hrest : AtRest rules J.likeness t) (hdepth : 4 ≤ depth) {pairs : List (ι₁ × JoinPair α β)}
    (hrun : (J.pairs.items.run rules depth t).1 = .ok pairs) {touched : ι₁ → Prop}
    (htouched : ∀ i ∈ J.left.valueOf .keys t,
      touched i ↔ Renewed s t (J.left.key (.item i)) ∨ J.Differs s t i)
    (hnew : ∀ i ∈ J.left.valueOf .keys t, i ∉ J.left.valueOf .keys s →
      Renewed s t (J.left.key (.item i))) :
    J.Rereads rules touched s (J.pairs.items.run rules depth t).2 := by
  obtain ⟨r, hr, hl⟩ := hread
  rw [h.run_pairs hrest.idle] at hrun ⊢
  have hrunInputs := (run_inputs rules depth (J.pairsOf (J.left.valueOf .keys t)) t).inputs
  rcases Nat.lt_or_eq_of_le ht.revision with hrose | hsame
  · obtain ⟨ks, hks⟩ := h.exists_rereading hs ht hinputs hrose hrest hdepth hrun
    have hiff (i : ι₁) (hi : i ∈ J.left.valueOf .keys t) :
        J.nodes.key (.item i) ∈ ks ↔ touched i := by
      by_cases hold : i ∈ J.left.valueOf .keys s
      · rw [htouched i hi, hks.item_mem_iff h (hl i hold) hi, differs_congr hrunInputs]
      · have hrenewed := hnew i hi hold
        refine iff_of_true ?_ ((htouched i hi).mpr (.inl hrenewed))
        obtain ⟨m, hm, hv⟩ := (hks.rerun.finished _ ⟨i, hi, rfl⟩).exists_memo (h.rule (.item i))
        exact hks.rerun.effect _ m hm hv _ (h.left_mem_reads hks.rest' hm) _
          (h.left_input (.item i)) ((renewed_congr (by rw [hrunInputs])).mpr hrenewed)
    have hkeys := valueOf_congr_inputs (J := J) hrunInputs .keys
    refine ⟨⟨ks, hks.rerun.executed, hks.rerun.nodup, fun k hk => ?_, fun i => ?_⟩, ?_, _,
      Nat.le_refl _, ?_⟩
    · obtain ⟨n, hn, -⟩ := hks.exists_node h hk
      exact ⟨n, hn⟩
    · rw [hkeys]
      constructor
      · intro hi
        obtain ⟨-, -, hmem⟩ := hks.exists_node h hi
        exact ⟨hmem i rfl, (hiff i (hmem i rfl)).mp hi⟩
      · exact fun ⟨hi, hti⟩ => (hiff i hi).mpr hti
    · rw [hkeys]
      intro i hi hti
      have hold : i ∈ J.left.valueOf .keys s := by
        by_contra hold
        exact hti ((htouched i hi).mpr (.inl (hnew i hi hold)))
      obtain ⟨m, hm, -⟩ := (hl i hold).exists_memo (h.rule (.item i))
      obtain ⟨v, hv⟩ := hks.served hm fun hmem => hti ((hiff i hi).mp hmem)
      exact ⟨m, v, hm, hv⟩
    · rw [hkeys]
      intro i hi
      exact .of_grounded hks.rest'.tidy hks.rest'.dated (hks.rerun.finished _ ⟨i, hi, rfl⟩)
  · have hrenewed (d : K) : ¬ Renewed s t d := hs.dated.not_renewed (ht.inputs hsame.symm d)
    refine h.rereads_unchanged hrest.idle ht hsame.symm hr (fun i hi => hl i ?_) rfl
      (fun i hi hti => ?_) depth
    · by_contra hold
      exact hrenewed _ (hnew i hi hold)
    · rcases (htouched i hi).mp hti with hre | ⟨a, -, k, -, hdiffers⟩
      · exact hrenewed _ hre
      · rw [tuple_congr fun n => ht.inputs hsame.symm _, BEq.rfl] at hdiffers
        cases hdiffers

end Join
end SceneCodegen.Graph
