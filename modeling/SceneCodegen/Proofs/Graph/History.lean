import SceneCodegen.Proofs.Graph.Reading

/-!
# Histories

A store that is used only from outside, by setting inputs, reading and entering and leaving passes,
stays sound: each new value of an input extends the past by a revision, and dropping memos takes
nothing from what the others stand for.
-/
namespace SceneCodegen.Graph

variable {K : Type} {V : K → Type} {α : Type}

/-- What is done to a graph from outside. What happens in a pass happens between its being entered
and left. -/
inductive Move (K : Type) (V : K → Type)
  | set (k : K) (v : V k)
  | run (depth : Nat) (program : Program K V Unit)
  | enter (token : Option Token)
  | leave (wasCancelled : Bool)

section
variable [BEq K] [Coherent K V] [∀ k, BEq (V k)]

/-- New values of inputs leave memos and the pass alone. -/
theorem setInput_frame (k : K) (v : V k) (s : Store K V) :
    (s.setInput k v).2.memos = s.memos ∧ (s.setInput k v).2.token = s.token := by
  simp only [Store.setInput]
  split
  · exact ⟨rfl, rfl⟩
  · split <;> exact ⟨rfl, rfl⟩

namespace Move

def apply (rules : Rules K V) : Move K V → Store K V → Store K V
  | set k v, s => (s.setInput k v).2
  | run depth program, s => (program.run rules depth s).2
  | enter token, s => s.beginPass token
  | leave wasCancelled, s => s.endPass wasCancelled

/-- Only nodes of a set are read from outside. -/
def ReadsWithin (T : K → Prop) : Move K V → Prop
  | run _ program => program.Within T
  | _ => True

/-- Only values like themselves are set. -/
def SetsWithin (L : Likeness K V) : Move K V → Prop
  | set k v => L.like k v v
  | _ => True

end Move

def follow (rules : Rules K V) (history : List (Move K V)) (s : Store K V) : Store K V :=
  history.foldl (fun s move => move.apply rules s) s

def reach (rules : Rules K V) (history : List (Move K V)) : Store K V := follow rules history {}

/-- No history leaves anything computing. -/
theorem reach_idle (rules : Rules K V) (history : List (Move K V)) :
    (reach rules history).active = [] := by
  have hfollow (s : Store K V) (h : s.active = []) : (follow rules history s).active = [] := by
    induction history generalizing s with
    | nil => exact h
    | cons move history ih =>
      refine ih _ ?_
      cases move with
      | set k v =>
        simp only [Move.apply, Store.setInput]
        split
        · exact h
        · split <;> exact h
      | run depth program => exact run_idle rules depth program h
      | enter token => exact h
      | leave wasCancelled => exact h
  exact hfollow {} rfl

end

variable [BEq K] [LawfulBEq K]

variable {rules : Rules K V} {L : Likeness K V} {past : Nat → Inputs K V} {s s' : Store K V}

/-- The past with the inputs of a store at the revision after it. -/
def extend (past : Nat → Inputs K V) (s : Store K V) (r : Nat) : Inputs K V :=
  if r < s.revision then past r else s.input?

theorem extend_of_lt {r : Nat} (h : r < s.revision) : extend past s r = past r := if_pos h

theorem extend_revision : extend past s s.revision = s.input? := if_neg (Nat.lt_irrefl _)

/-- Setting an input to a new value extends the past. -/
theorem Sound.extend (h : Sound rules L past s) {k : K} {v : V k} (hv : L.like k v v)
    (hr : s'.revision = s.revision + 1)
    (hi : s'.inputs = s.inputs.set k ⟨v, s.revision + 1⟩) (hm : s'.memos = s.memos) :
    Sound rules L (extend past s') s' where
  inputs a x hx := by
    have hnow : s'.input? a = some x.value := by simp [Store.input?, hx]
    rw [hi] at hx
    by_cases hak : k = a
    · subst hak
      rw [NodeTable.get?_set_self] at hx
      cases hx
      refine ⟨Nat.le_of_eq hr.symm, fun r hle hge => ?_⟩
      obtain rfl : r = s'.revision := by
        simp only at hle
        omega
      rwa [extend_revision]
    · rw [NodeTable.get?_set_of_ne _ hak] at hx
      obtain ⟨hle, hpast⟩ := h.inputs a x hx
      refine ⟨by omega, fun r hxr hrr => ?_⟩
      rcases Nat.lt_or_eq_of_le hrr with hlt | rfl
      · rw [extend_of_lt hlt]
        exact hpast r hxr (by omega)
      · rwa [extend_revision]
  absent a hx r hrr := by
    have hnow : s'.input? a = none := by simp [Store.input?, hx]
    rw [hi] at hx
    have hak : k ≠ a := by
      rintro rfl
      simp at hx
    rw [NodeTable.get?_set_of_ne _ hak] at hx
    rcases Nat.lt_or_eq_of_le hrr with hlt | rfl
    · rw [extend_of_lt hlt]
      exact h.absent a hx r (by omega)
    · rwa [extend_revision]
  domain a x hx := by
    rw [hi] at hx
    by_cases hak : k = a
    · subst hak
      rw [NodeTable.get?_set_self] at hx
      cases hx
      exact hv
    · rw [NodeTable.get?_set_of_ne _ hak] at hx
      exact h.domain a x hx
  memos a m hma := by
    rw [hm] at hma
    have hb := h.memos a m hma
    obtain ⟨p, n, ks, w, hk, hp, hw, hreads, ht⟩ := hb.exists_run
    have hle := hb.le_revision
    have hpast : SceneCodegen.Graph.extend past s' m.verifiedAt = past m.verifiedAt :=
      extend_of_lt (by omega)
    refine ⟨by omega, hb.changed_le, p, n, ks, w, hk, by rwa [hpast], hw, hreads, ?_⟩
    intro d hd i u hu x hx
    rw [hpast] at hu
    exact ht d hd i u hu x (by rwa [hm] at hx)

/-- A store between reads, whose memos are sound for some past. -/
structure AtRest (rules : Rules K V) (L : Likeness K V) (s : Store K V) : Prop where
  idle : s.active = []
  exists_sound : ∃ past, Sound rules L past s

/-- A new store into which values were put one after another. -/
def filled [∀ k, BEq (V k)] (settings : List ((k : K) × V k)) : Store K V :=
  settings.foldl (fun s x => (s.setInput x.1 x.2).2) {}

/-- Reads of a node give, at every sufficient depth, a value like the one that reads give of a new
store with the same inputs. -/
def ReadsAfresh [∀ k, BEq (V k)] (rules : Rules K V) (L : Likeness K V) (s : Store K V) (k : K) :
    Prop :=
  ∃ N, ∀ depth, N ≤ depth → ∃ v, ((Program.get k).run rules depth s).1 = .ok v ∧
    ∀ settings, (filled settings).input? = s.input? →
      ∃ w, ((Program.get k).run rules depth (filled settings)).1 = .ok w ∧ L.like k w v

/-- Reads of a node fail at every sufficient depth. -/
def Raises [∀ k, BEq (V k)] (rules : Rules K V) (s : Store K V) (k : K) : Prop :=
  ∃ N, ∀ depth, N ≤ depth → ∃ e, ((Program.get k).run rules depth s).1 = .error (.failed e)

theorem filled_frame [∀ k, BEq (V k)] (settings : List ((k : K) × V k)) :
    (filled settings).memos = {} ∧ (filled settings).token = none := by
  have hfold (s : Store K V) (hs : s.memos = {} ∧ s.token = none) :
      (settings.foldl (fun s x => (s.setInput x.1 x.2).2) s).memos = {} ∧
        (settings.foldl (fun s x => (s.setInput x.1 x.2).2) s).token = none := by
    induction settings generalizing s with
    | nil => exact hs
    | cons x settings ih =>
      obtain ⟨hm, ht⟩ := setInput_frame x.1 x.2 s
      exact ih _ ⟨hm.trans hs.1, ht.trans hs.2⟩
  exact hfold {} ⟨rfl, rfl⟩

namespace AtRest
variable {T : K → Prop}

theorem empty : AtRest rules L {} where
  idle := rfl
  exists_sound := by
    refine ⟨fun _ _ => none, ?_, fun k _ r _ => rfl, ?_, ?_⟩
    all_goals
      intro k x hx
      cases hx

theorem beginPass (h : AtRest rules L s) (token : Option Token) :
    AtRest rules L (s.beginPass token) := by
  obtain ⟨past, hs⟩ := h.exists_sound
  exact ⟨h.idle, past, hs.of_same rfl rfl rfl⟩

theorem endPass (h : AtRest rules L s) (wasCancelled : Bool) :
    AtRest rules L (s.endPass wasCancelled) := by
  obtain ⟨past, hs⟩ := h.exists_sound
  refine ⟨h.idle, past, hs.of_fewer rfl rfl fun k m hm => ?_⟩
  cases wasCancelled with
  | false => exact hm
  | true =>
    simp only [Store.endPass, if_true, NodeTable.get?_without] at hm
    split at hm
    · cases hm
    · exact hm

variable [∀ k, BEq (V k)]

theorem setInput (h : AtRest rules L s) {k : K} {v : V k} (hv : L.like k v v) :
    AtRest rules L (s.setInput k v).2 := by
  obtain ⟨past, hs⟩ := h.exists_sound
  have hidle : s.active.isEmpty := by simp [h.idle]
  simp only [Store.setInput, hidle, Bool.not_true, Bool.false_eq_true, if_false]
  split
  · exact h
  · exact ⟨h.idle, _, hs.extend hv rfl rfl rfl⟩

theorem filled (hL : ∀ k v, L.like k v v) (settings : List ((k : K) × V k)) :
    AtRest rules L (filled settings) := by
  have hfold (s : Store K V) (hs : AtRest rules L s) :
      AtRest rules L (settings.foldl (fun s x => (s.setInput x.1 x.2).2) s) := by
    induction settings generalizing s with
    | nil => exact hs
    | cons x settings ih => exact ih _ (hs.setInput (hL x.1 x.2))
  exact hfold {} .empty

variable [Node K]

/-- A read at rest gives what the node settles to under the inputs of the store. -/
theorem served (hO : Orderly rules L) (h : AtRest rules L s) (hT : Steady rules s.input? T)
    {k : K} (hk : T k) (depth : Nat) :
    ∃ past, past s.revision = s.input? ∧ Served rules L past s.revision depth k
      (Spared rules s.input? T k) (Gives rules L past s.revision k) s (fetch rules depth k s) := by
  obtain ⟨past, hs⟩ := h.exists_sound
  refine ⟨past, hs.past_eq, ?_⟩
  rw [← hs.past_eq] at hT ⊢
  refine serves hO hT depth k s hk rfl hs ?_
  intro a ha
  rw [h.idle] at ha
  cases ha

/-- Outside a pass, a read ends as the node settles. -/
theorem agree_of_ended (hO : Orderly rules L) (h : AtRest rules L s)
    (hT : Steady rules s.input? T) (ht : s.token = none) {k : K} (hk : T k) {n depth : Nat}
    (hle : n ≤ depth) (hn : Ended (settle rules s.input? n k)) :
    Agree SameKind (L.like k) (settle rules s.input? n k)
      ((Graph.fetch rules depth k s).1.map (·.value)) := by
  obtain ⟨past, hpast, hserved⟩ := h.served hO hT hk depth
  rw [← hpast] at hn ⊢
  exact hserved.agree ht hle hn

/-- Outside a pass, a node that settles with a value reads as it does afresh. -/
theorem readsAfresh (hO : Orderly rules L) (hL : ∀ k v, L.like k v v) (h : AtRest rules L s)
    (hT : Steady rules s.input? T) (ht : s.token = none) {k : K} (hk : T k) {n : Nat} {v : V k}
    (hv : settle rules s.input? n k = .ok v) : ReadsAfresh rules L s k := by
  have hn : Ended (settle rules s.input? n k) := by rw [hv]; exact ended_ok v
  refine ⟨n, fun depth hle => ?_⟩
  have hread := h.agree_of_ended hO hT ht hk hle hn
  rw [hv] at hread
  obtain ⟨w, hw, hvw⟩ := hread.of_ok
  refine ⟨w, by rw [run_get h.idle, hw], fun settings hsettings => ?_⟩
  rw [← hsettings] at hT hn hv
  have hfresh : AtRest rules L (Graph.filled settings) := .filled hL settings
  have hread' := hfresh.agree_of_ended hO hT (filled_frame settings).2 hk hle hn
  rw [hv] at hread'
  obtain ⟨u, hu, hvu⟩ := hread'.of_ok
  exact ⟨u, by rw [run_get hfresh.idle, hu], L.trans (L.symm hvu) hvw⟩

theorem fetch (hO : Orderly rules L) (h : AtRest rules L s) (hT : Steady rules s.input? T)
    {k : K} (hk : T k) (depth : Nat) : AtRest rules L (fetch rules depth k s).2 ∧
      (Graph.fetch rules depth k s).2.input? = s.input? := by
  obtain ⟨past, hpast, hserved⟩ := h.served hO hT hk depth
  refine ⟨⟨(fetch_active rules depth k s).trans h.idle, past, hserved.sound⟩, ?_⟩
  funext a
  simp [Store.input?, hserved.advances.inputs]

/-- Programs run from outside leave a store at rest with its inputs. -/
theorem run (hO : Orderly rules L) (h : AtRest rules L s) (hT : Steady rules s.input? T)
    {p : Program K V α} (hp : p.Within T) (depth : Nat) :
    AtRest rules L (p.run rules depth s).2 ∧ (p.run rules depth s).2.input? = s.input? := by
  induction hp generalizing s with
  | done a => exact ⟨h, rfl⟩
  | fail e => exact ⟨h, rfl⟩
  | @read k next hk _ ih =>
    obtain ⟨hrest, hinputs⟩ := h.fetch hO hT hk depth
    simp only [Program.run, Program.runWith, Store.noteRead_of_idle h.idle]
    generalize Graph.fetch rules depth k s = out at hrest hinputs
    obtain ⟨r, s'⟩ := out
    have hnext (r : Except (Failure K) (V k)) :
        AtRest rules L ((next r).run rules depth s').2 ∧
          ((next r).run rules depth s').2.input? = s.input? := by
      obtain ⟨hr, hi⟩ := ih r hrest (by rw [show s'.input? = _ from hinputs]; exact hT)
      exact ⟨hr, hi.trans hinputs⟩
    cases r with
    | ok node => exact hnext (.ok node.value)
    | error halt =>
      cases halt with
      | failed e => exact hnext (.error e)
      | tooDeep => exact ⟨hrest, hinputs⟩
  | cancel _ ih =>
    obtain ⟨past, hs⟩ := h.exists_sound
    exact ih (s := s.cancelPass) ⟨h.idle, past, hs.of_same rfl rfl rfl⟩ hT

end AtRest

variable [∀ k, BEq (V k)]

/-- A move that reads only firm nodes leaves a store at rest. -/
theorem AtRest.apply [Node K] (hO : Orderly rules L) (h : AtRest rules L s) {move : Move K V}
    (hread : move.ReadsWithin (Firm rules s.input?)) (hset : move.SetsWithin L) :
    AtRest rules L (move.apply rules s) := by
  cases move with
  | set k v => exact h.setInput hset
  | run depth program => exact (h.run hO (steady_firm rules s.input?) hread depth).1
  | enter token => exact h.beginPass token
  | leave wasCancelled => exact h.endPass wasCancelled

/-- Each move of a history reads only nodes that are firm at the time. -/
def ReadsFirmly (rules : Rules K V) : List (Move K V) → Store K V → Prop
  | [], _ => True
  | move :: history, s =>
    move.ReadsWithin (Firm rules s.input?) ∧ ReadsFirmly rules history (move.apply rules s)

theorem AtRest.follow [Node K] (hO : Orderly rules L) (hL : ∀ k v, L.like k v v)
    (h : AtRest rules L s) {history : List (Move K V)} (hread : ReadsFirmly rules history s) :
    AtRest rules L (follow rules history s) := by
  induction history generalizing s with
  | nil => exact h
  | cons move history ih =>
    refine ih (h.apply hO hread.1 ?_) hread.2
    cases move with
    | set k v => exact hL k v
    | _ => trivial

end SceneCodegen.Graph
