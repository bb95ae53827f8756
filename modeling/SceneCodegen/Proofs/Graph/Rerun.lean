import SceneCodegen.Proofs.Graph.Completion
import SceneCodegen.Proofs.Graph.Heeding
import SceneCodegen.Proofs.Graph.Renewal

/-!
# Runs after changes of inputs

What the next run executes after inputs were set, if the last run was completed and nothing was
dropped that its result rests on: nothing whose inputs are as they were, and whatever reads an input
that was changed.
-/
namespace SceneCodegen.Graph

variable {K : Type} {V : K → Type} {α β : Type}

namespace Program
variable {T : K → Prop} {Q : (k : K) → V k → Prop} {E : Failure K → Prop} {P : α → Prop}

/-- A program that ends with a value has read a node, whatever other values it read, as long as they
are as expected. -/
inductive Demands (Q : (k : K) → V k → Prop) (d : K) : Program K V α → Prop
  | fail (e : Failure K) : Demands Q d (.fail e)
  | here (next : Except (Failure K) (V d) → Program K V α) : Demands Q d (.read d next)
  | later {k : K} {next : Except (Failure K) (V k) → Program K V α}
      (h : ∀ v, Q k v → Demands Q d (next (.ok v))) : Demands Q d (.read k next)

theorem demands_get (k : K) : (get k : Program K V (V k)).Demands Q k := .here _

namespace Demands
variable {d : K} {p : Program K V α}

theorem bind (h : p.Demands Q d) (f : α → Program K V β) : (p.bind f).Demands Q d := by
  induction h with
  | fail e => exact .fail e
  | here next => exact .here _
  | later _ ih => exact .later ih

theorem strict (h : p.Demands Q d) : p.strict.Demands Q d := by
  induction h with
  | fail e => exact .fail e
  | here next => exact .here _
  | later _ ih => exact .later ih

/-- What is read after a program is demanded together with it. -/
theorem after (hp : p.Heeds T Q E P) {f : α → Program K V β} (hf : ∀ a, P a → (f a).Demands Q d) :
    (p.bind f).Demands Q d := by
  induction hp with
  | done h => exact hf _ h
  | fail _ => exact .fail _
  | read _ _ _ ih => exact .later ih

theorem mapM {f : α → Program K V β} {R : β → Prop} {l : List α}
    (hf : ∀ a ∈ l, (f a).Heeds T Q E R) {a : α} (ha : a ∈ l) (hd : (f a).Demands Q d) :
    (l.mapM f).Demands Q d := by
  induction l with
  | nil => cases ha
  | cons b l ih =>
    rw [List.mapM_cons]
    rcases List.mem_cons.mp ha with rfl | ha
    · exact hd.bind _
    · exact .after (hf b List.mem_cons_self) fun _ _ =>
        (ih (fun a ha => hf a (List.mem_cons_of_mem _ ha)) ha).bind _

theorem mem_reads (h : p.Demands Q d) {below : (k : K) → Except (Halt K) (V k)}
    (hQ : ∀ k v, below k = .ok v → Q k v) {ks : List K} {a : α}
    (hp : p.settleWith below = .ok (ks, a)) : d ∈ ks := by
  induction h generalizing ks with
  | fail e => cases hp
  | here next =>
    simp only [settleWith] at hp
    split at hp
    · obtain ⟨⟨ls, b⟩, -, heq⟩ := map_eq_ok_iff.mp hp
      cases heq
      exact List.mem_cons_self
    · cases hp
  | @later k next _ ih =>
    simp only [settleWith] at hp
    split at hp
    · rename_i v hv
      obtain ⟨⟨ls, b⟩, hls, heq⟩ := map_eq_ok_iff.mp hp
      cases heq
      exact List.mem_cons_of_mem k (ih v (hQ k v hv) hls)
    · cases hp

end Demands

theorem Safe.mem_reads {T : K → Prop} {E : Failure K → Prop} {p : Program K V α} (h : p.Safe T E)
    {below : (k : K) → Except (Halt K) (V k)} {ks : List K} {a : α}
    (hp : p.settleWith below = .ok (ks, a)) {d : K} (hd : d ∈ ks) : T d := by
  induction h generalizing ks with
  | done b =>
    cases hp
    cases hd
  | fail _ => cases hp
  | @read k next hk _ _ ih =>
    simp only [Program.settleWith] at hp
    split at hp
    · rename_i v hv
      obtain ⟨⟨ls, b⟩, hls, heq⟩ := map_eq_ok_iff.mp hp
      cases heq
      rcases List.mem_cons.mp hd with rfl | hd
      · exact hk
      · exact ih v hls hd
    · cases hp

end Program

variable [BEq K] [LawfulBEq K] {rules : Rules K V} {L : Likeness K V} {level : K → Nat}
  {s s' t : Store K V} {k d : K}

/-- All valid memos rest on valid ones. -/
def Rooted (rules : Rules K V) (s : Store K V) : Prop :=
  ∀ k m, s.memos.get? k = some m → m.verifiedAt = s.revision → Grounded rules s k

/-- Nothing was dropped that a node rests on through recorded reads. -/
def Intact (rules : Rules K V) (s : Store K V) (k : K) : Prop :=
  ∀ d, RestsOn s k d → (∃ absent, rules d = .input absent) ∨ ∃ m, s.memos.get? d = some m

theorem grounded_strictly_iff : Grounded (strictly rules) s k ↔ Grounded rules s k := by
  constructor
  · intro h
    induction h with
    | input hk => exact .input (strictly_input_iff.mp hk)
    | memo hm hv _ ih => exact .memo hm hv ih
  · intro h
    induction h with
    | input hk => exact .input (strictly_input_iff.mpr hk)
    | memo hm hv _ ih => exact .memo hm hv ih

theorem Grounded.exists_memo (h : Grounded rules s k) {p : Program K V (V k)}
    (hk : rules k = .query p) : ∃ m, s.memos.get? k = some m ∧ m.verifiedAt = s.revision := by
  cases h with
  | input hi =>
    rw [hk] at hi
    cases hi
  | memo hm hv _ => exact ⟨_, hm, hv⟩

namespace AtRest
variable (h : AtRest rules L s)
include h

/-- What is recorded in a memo is what its query read for it. -/
theorem recorded {m : Memo K (V k)} (hm : s.memos.get? k = some m) :
    ∃ p below ks v, rules k = .query p ∧ p.settleWith below = .ok (ks, v) ∧
      ∀ d, d ∈ m.reads ↔ d ∈ ks := by
  obtain ⟨past, hs⟩ := h.exists_sound
  obtain ⟨p, n, ks, v, hk, hp, -, hreads, -⟩ := (hs.memos k m hm).exists_run
  exact ⟨p, _, ks, v, hk, hp, fun d => by rw [hreads, List.mem_eraseDups]⟩

/-- What is recorded in a valid memo is what its query reads under the present inputs. -/
theorem recorded_now {m : Memo K (V k)} (hm : s.memos.get? k = some m)
    (hv : m.verifiedAt = s.revision) :
    ∃ p n ks v, rules k = .query p ∧ p.settleWith (settle rules s.input? n) = .ok (ks, v) ∧
      ∀ d, d ∈ m.reads ↔ d ∈ ks := by
  obtain ⟨past, hs⟩ := h.exists_sound
  obtain ⟨p, n, ks, v, hk, hp, -, hreads, -⟩ := (hs.memos k m hm).exists_run
  rw [hv, hs.past_eq] at hp
  exact ⟨p, n, ks, v, hk, hp, fun d => by rw [hreads, List.mem_eraseDups]⟩

theorem valid_of_recorded {m : Memo K (V k)} (hm : s.memos.get? k = some m)
    (hv : m.verifiedAt = s.revision) (hd : d ∈ m.reads) {x : Memo K (V d)}
    (hx : s.memos.get? d = some x) : x.verifiedAt = s.revision := by
  obtain ⟨past, hs⟩ := h.exists_sound
  obtain ⟨p, n, ks, v, -, hp, -, hreads, ht⟩ := (hs.memos k m hm).exists_run
  rw [hreads, List.mem_eraseDups] at hd
  obtain ⟨w, hw⟩ := p.exists_of_mem_reads hp hd
  have hle := (ht d hd n w hw x hx).1
  have hle' := (hs.memos d x hx).le_revision
  omega

theorem level_of_recorded (hlevel : Leveled rules level) {m : Memo K (V k)}
    (hm : s.memos.get? k = some m) (hd : d ∈ m.reads) : level d < level k := by
  obtain ⟨p, below, ks, v, hk, hp, hreads⟩ := h.recorded hm
  exact (hlevel.safe k p hk).mem_reads hp ((hreads d).mp hd)

/-- What is read for a node that rests on valid ones rests on valid ones. -/
theorem demanded {Q : (k : K) → V k → Prop} (hg : Grounded rules s k) {p : Program K V (V k)}
    (hk : rules k = .query p) (hd : p.Demands Q d)
    (hQ : ∀ n k v, settle rules s.input? n k = .ok v → Q k v) : Grounded rules s d := by
  cases hg with
  | input hi =>
    rw [hk] at hi
    cases hi
  | memo hm hv hbelow =>
    obtain ⟨q, n, ks, v, hq, hp, hreads⟩ := h.recorded_now hm hv
    rw [hk] at hq
    cases hq
    exact hbelow d ((hreads d).mpr (hd.mem_reads (hQ n) hp))

/-- A valid node that rests on nothing dropped rests on valid nodes. -/
theorem grounded_of_intact (hlevel : Leveled rules level) {m : Memo K (V k)}
    (hm : s.memos.get? k = some m) (hv : m.verifiedAt = s.revision) (hi : Intact rules s k) :
    Grounded rules s k := by
  induction hn : level k using Nat.strongRecOn generalizing k with
  | _ n ih =>
    refine .memo hm hv fun d hd => ?_
    rcases hi d (.read hm hd (.self d)) with ⟨absent, hk⟩ | ⟨x, hx⟩
    · exact .input hk
    · have hlt := h.level_of_recorded hlevel hm hd
      exact ih (level d) (by omega) hx (h.valid_of_recorded hm hv hd hx)
        (fun e he => hi e (.read hm hd he)) rfl

end AtRest

variable [∀ k, BEq (V k)] {depth : Nat}

omit [∀ k, BEq (V k)] in
theorem AtRest.kept (h : AtRest rules L s) (hr : Rooted rules s) :
    Kept (Graph.strictly rules) s where
  toTidy := h.strictly.tidy
  grounded k m hm hv := grounded_strictly_iff.mpr (hr k m hm hv)

omit [∀ k, BEq (V k)] in
theorem Kept.rooted (h : Kept (strictly rules) s) : Rooted rules s :=
  fun k m hm hv => grounded_strictly_iff.mp (h.grounded k m hm hv)

/-- What a program demands is valid after it has ended with a value. -/
theorem Program.Demands.holds (hF : ∀ k p, rules k = .query p → p.Relays fun _ => True)
    {p : Program K V α} {Q : (k : K) → V k → Prop} (hQ : ∀ k v, Q k v) (hd : p.Demands Q d)
    (hp : p.Relays fun _ => True) (hs : Kept rules s)
    (hidle : s.active = []) {a : α} (hf : p.run rules depth s = (.ok a, s')) :
    ∃ node, Holds rules s' d node := by
  induction hd generalizing s with
  | fail e => cases hf
  | here next =>
    obtain ⟨node, s₁, hread, hnext, hrest⟩ := Program.runWith_read hp hf
    rw [Store.noteRead_of_idle hidle] at hread
    obtain ⟨ks, -, hs₁, hholds⟩ :=
      fetch_visits hF depth [] d s node s₁ hs (by simp [Pending]) hread
    have hidle₁ : s₁.active = [] := by
      have hactive := fetch_active rules depth d s
      rw [hread] at hactive
      exact hactive.trans hidle
    obtain ⟨ls, hvisit, -⟩ := Program.Relays.run_visits hF hnext hs₁ hidle₁ hrest
    exact ⟨node, hvisit.retains.holds hholds⟩
  | @later k next _ ih =>
    obtain ⟨node, s₁, hread, hnext, hrest⟩ := Program.runWith_read hp hf
    rw [Store.noteRead_of_idle hidle] at hread
    obtain ⟨ks, -, hs₁, -⟩ := fetch_visits hF depth [] k s node s₁ hs (by simp [Pending]) hread
    have hidle₁ : s₁.active = [] := by
      have hactive := fetch_active rules depth k s
      rw [hread] at hactive
      exact hactive.trans hidle
    exact ih node.value (hQ k _) hnext hs₁ hidle₁ hrest

/-- Where only valid nodes are read, a run does nothing. -/
theorem Program.Within.run_idle {T : K → Prop} {p : Program K V α} (hp : p.Within T)
    (hsafe : p.Safe (level · < depth) (Unfailing K)) (hT : ∀ d, T d → Grounded rules s d)
    (hs : Tidy rules s) (hidle : s.active = []) : ∃ a, p.run rules depth s = (.ok a, s) := by
  induction hsafe with
  | done a => exact ⟨a, rfl⟩
  | fail h => exact h.elim
  | @read k next hk _ _ ih =>
    cases hp with
    | read hkT hnext =>
      have hread : ∃ node, fetch rules depth k s = (.ok node, s) := by
        cases hT k hkT with
        | input hrule => exact ⟨_, fetch_input hrule depth s⟩
        | @memo _ m hm hv _ =>
          obtain ⟨q, hq⟩ := hs.query k m hm
          obtain ⟨n, rfl⟩ : ∃ n, depth = n + 1 := ⟨depth - 1, by omega⟩
          exact ⟨_, fetch_of_verified hq n hm hv⟩
      obtain ⟨node, hnode⟩ := hread
      obtain ⟨a, ha⟩ := ih node.value (hnext _)
      refine ⟨a, ?_⟩
      simp only [Program.run, Program.runWith, Store.noteRead_of_idle hidle, hnode]
      exact ha

section
variable [Node K] {p : Program K V α} (hO : Orderly rules L) (hlevel : Leveled rules level)
  (hp : p.Safe (level · < depth) (Unfailing K))
include hO hlevel hp

/-- A run that ends with a value is a visit, and what it demands rests on valid nodes. -/
theorem AtRest.run_visits (h : AtRest rules L s) (hr : Rooted rules s) {a : α}
    (ha : (p.run rules depth s).1 = .ok a) :
    (∃ ks, Visit (Graph.strictly rules) [] ks s (p.run rules depth s).2) ∧
      Rooted rules (p.run rules depth s).2 ∧
      ∀ d, p.Demands (fun _ => Anything) d → Grounded rules (p.run rules depth s).2 d := by
  have hkept := h.kept hr
  have hundisturbed := h.undisturbed hO hlevel hp ha
  obtain ⟨ks, hvisit, hkept'⟩ := Undisturbed.visit hundisturbed hkept h.idle
  refine ⟨⟨ks, hvisit⟩, hkept'.rooted, fun d hd => ?_⟩
  obtain ⟨b, hstrict⟩ := hundisturbed.run_strict
  obtain ⟨node, hnode⟩ := hd.strict.holds (relays_strictly rules) (fun _ _ => trivial)
    p.relays_strict hkept h.idle hstrict
  exact grounded_strictly_iff.mp (hnode.grounded hkept')

end

omit [∀ k, BEq (V k)] in
theorem Grounded.of_memos (h : Grounded rules s k) (hm : s'.memos = s.memos)
    (hr : s'.revision = s.revision) : Grounded rules s' k := by
  induction h with
  | input hk => exact .input hk
  | memo hk hv _ ih => exact .memo (by rw [hm]; exact hk) (hv.trans hr.symm) ih

omit [∀ k, BEq (V k)] in
/-- After a change no memo is valid any more. -/
theorem Refreshed.rooted (h : Refreshed s s') (hs : Tidy rules s) (hr : Rooted rules s) :
    Rooted rules s' := by
  intro k m hm hv
  rw [h.memos] at hm
  have hle := hs.le_revision k m hm
  have hle' := h.revision
  exact (hr k m hm (by omega)).of_memos h.memos (by omega)

omit [∀ k, BEq (V k)] in
theorem Refreshed.rooted_of_lt (h : Refreshed s s') (hs : Tidy rules s)
    (hlt : s.revision < s'.revision) : Rooted rules s' := by
  intro k m hm hv
  rw [h.memos] at hm
  have hle := hs.le_revision k m hm
  omega

/-- A run after changes of inputs, that executed some queries, the latest first. -/
structure Rerun (rules : Rules K V) (T root : K → Prop) (ks : List K) (s s' : Store K V) :
    Prop where
  executed : s'.executed = ks ++ s.executed
  nodup : ks.Nodup
  within : ∀ k ∈ ks, T k
  /-- What had a valid result that was read of inputs has read one that was changed. -/
  cause : ∀ k ∈ ks, ∀ m, s.memos.get? k = some m → m.verifiedAt = s.revision →
    (∀ d ∈ m.reads, ∃ absent, rules d = .input absent) → ∃ d ∈ m.reads, Renewed s s' d
  /-- What rests on no input that was changed is not executed. -/
  idle : ∀ k, Grounded rules s k →
    (∀ d absent, RestsOn s k d → rules d = .input absent → ¬ Renewed s s' d) → k ∉ ks
  /-- What is needed and reads an input that was changed is executed. -/
  effect : ∀ k m, s'.memos.get? k = some m → m.verifiedAt = s'.revision →
    ∀ d ∈ m.reads, ∀ absent, rules d = .input absent → Renewed s s' d → k ∈ ks
  finished : ∀ d, root d → Grounded rules s' d

section
variable [Node K] {p : Program K V α} {T root : K → Prop} {ks : List K}

omit [Node K] [∀ k, BEq (V k)] in
/-- Without any change nothing is executed. -/
theorem Refreshed.rerun_idle (hs : AtRest rules L s)
    (hfinished : ∀ d, root d → Grounded rules s d) (ht : Refreshed s t)
    (hsame : t.revision = s.revision) : Rerun rules T root [] s t where
  executed := ht.executed
  nodup := List.nodup_nil
  within := by simp
  cause := by simp
  idle := by simp
  effect k m hm hv d hd absent hk hrenewed := by
    obtain ⟨past, hsound⟩ := hs.exists_sound
    obtain ⟨x, hx, hlt⟩ := hrenewed
    rw [ht.inputs hsame d] at hx
    have hle := (hsound.inputs d x hx).1
    omega
  finished d hd := (hfinished d hd).of_memos ht.memos hsame

omit [∀ k, BEq (V k)] [Node K] in
theorem Tidy.strictly (h : Tidy rules s) : Tidy (Graph.strictly rules) s where
  query k m hm := by
    obtain ⟨q, hq⟩ := h.query k m hm
    exact ⟨q.strict, strictly_of_query hq⟩
  changed_le := h.changed_le
  le_revision := h.le_revision

omit [∀ k, BEq (V k)] [Node K] in
/-- An input that changed was set. -/
theorem exists_of_holds_input {r : Nat} {absent : V k} (hk : rules k = .input absent)
    (hs : Tidy rules s) {node : Stamped (V k)} (h : Holds (strictly rules) s k node)
    (hc : r < node.changedAt) : ∃ x, s.inputs.get? k = some x ∧ x = node := by
  cases h with
  | input _ he =>
    cases hx : s.inputs.get? k with
    | none =>
      rw [he, hx] at hc
      cases hc
    | some x => exact ⟨x, rfl, by rw [he, hx]; rfl⟩
  | memo hm _ _ =>
    obtain ⟨q, hq⟩ := hs.query k _ hm
    rw [hk] at hq
    cases hq

omit [Node K] in
/-- A visit after a change of inputs. -/
theorem Visit.rerun (hs : Tidy rules s) (ht : Refreshed s t) (hlt : s.revision < t.revision)
    (hvisit : Visit (Graph.strictly rules) [] ks t s') (hs' : Tidy rules s')
    (hspared : ∀ k, ¬ T k → s'.memos.get? k = t.memos.get? k)
    (hfinished : ∀ d, root d → Grounded rules s' d) : Rerun rules T root ks s s' where
  executed := by rw [hvisit.executed, ht.executed]
  nodup := hvisit.unlike.nodup
  within k hk := by
    by_contra hT
    obtain ⟨-, m, hm, hv, -⟩ := hvisit.recomputed k hk
    rw [hspared k hT, ht.memos] at hm
    have hle := hs.le_revision k m hm
    omega
  cause k hk m hm hv hinputs := by
    have hm' : t.memos.get? k = some m := by rw [ht.memos]; exact hm
    obtain ⟨-, first, d, rest, node, hreads, -, hd, hc⟩ := (hvisit.recomputed k hk).1 m hm'
    have hmem : d ∈ m.reads := by simp [hreads]
    obtain ⟨absent, hrule⟩ := hinputs d hmem
    obtain ⟨x, hx, rfl⟩ := exists_of_holds_input hrule hs' hd (by omega)
    exact ⟨d, hmem, x, hx, by omega⟩
  idle k hg hunchanged := by
    have hle : s.revision ≤ t.revision := Nat.le_of_lt hlt
    have hg' : Grounded (Graph.strictly rules) s k := grounded_strictly_iff.mpr hg
    refine fun hks => Bool.eq_false_iff.mp (Stands.visit hs.strictly hs'.strictly hvisit hle hg'
      fun d hd => ?_).1 (List.contains_iff_mem.mpr hks)
    cases grounded_of_restsOn hs hd hg with
    | @input _ absent hrule =>
      refine .inl ⟨absent, strictly_input_iff.mpr hrule, ?_⟩
      cases hx : t.inputs.get? d with
      | none => exact Nat.zero_le _
      | some x =>
        refine Nat.le_of_not_lt fun hc => hunchanged d absent hd hrule ⟨x, ?_, hc⟩
        rw [hvisit.inputs]
        exact hx
    | @memo _ m hm hv _ =>
      exact .inr ⟨m, m.verifiedAt, hm, Nat.le_of_eq hv.symm, by rw [ht.memos]; exact hm⟩
  effect k m hm hv d hd absent hk hrenewed := by
    obtain ⟨x, hx, hc⟩ := hrenewed
    by_contra hks
    have hrevision : s'.revision = t.revision := hvisit.revision
    rcases hvisit.rested_of_not_mem hks with he | ⟨y, hy, -, hy', hu⟩
    · rw [he, ht.memos] at hm
      have hle := hs.le_revision k m hm
      omega
    · rw [hm] at hy'
      cases hy'
      rw [ht.memos] at hy
      have hle := hs.le_revision k y hy
      obtain ⟨node, hnode, hle'⟩ := hu d hd
      cases hnode with
      | input hrule he =>
        rw [hx, Option.getD_some] at he
        subst he
        omega
      | memo hz _ _ =>
        obtain ⟨q, hq⟩ := hs'.query d _ hz
        rw [hk] at hq
        cases hq
  finished := hfinished

/-- The run after a change of inputs, when what the last run read is as that run left it. -/
theorem AtRest.rerun (hO : Orderly rules L) (hlevel : Leveled rules level)
    (hp : p.Safe (level · < depth) (Unfailing K))
    (hdemands : ∀ d, root d → p.Demands (fun _ => Anything) d)
    (hwithin : p.Within root) (hs : AtRest rules L s)
    (hfinished : ∀ d, root d → Grounded rules s d) (ht : Refreshed s t) (hrest : AtRest rules L t)
    (hT : Steady rules t.input? T) (hroot : ∀ d, root d → T d) {a : α}
    (ha : (p.run rules depth t).1 = .ok a) :
    ∃ ks, Rerun rules T root ks s (p.run rules depth t).2 := by
  rcases Nat.lt_or_eq_of_le ht.revision with hlt | hsame
  · obtain ⟨⟨ks, hvisit⟩, -, hgrounded⟩ :=
      hrest.run_visits hO hlevel hp (ht.rooted_of_lt hs.tidy hlt) ha
    have hrest' := (hrest.run hO hT (hwithin.mono hroot) depth).1
    have hspared (k : K) (hk : ¬ T k) :
        (p.run rules depth t).2.memos.get? k = t.memos.get? k :=
      hrest.run_spares hO (hwithin.mono hroot) hT hk
    exact ⟨ks, hvisit.rerun hs.tidy ht hlt hrest'.tidy hspared
      fun d hd => hgrounded d (hdemands d hd)⟩
  · have hfinished' (d : K) (hd : root d) : Grounded rules t d :=
      (hfinished d hd).of_memos ht.memos hsame.symm
    obtain ⟨b, hb⟩ := hwithin.run_idle hp hfinished' hrest.tidy hrest.idle
    rw [hb]
    exact ⟨[], ht.rerun_idle hs hfinished hsame.symm⟩

end

end SceneCodegen.Graph
