import SceneCodegen.Proofs.Graph.Halting
import SceneCodegen.Proofs.Graph.History

/-!
# From-scratch consistency

Where queries pass every failure on, the memo-free value of a node is the one it settles to, and the
memo-free evaluation fails either as the node does or because it came back to a node on a loop. So a
read through memos, after any history, ends as the memo-free evaluation of the current inputs does.
-/
namespace SceneCodegen.Graph

variable {K : Type} {V : K → Type} {α : Type} {rules : Rules K V} {inputs : Inputs K V}

section
variable {below : (k : K) → Except (Halt K) (V k)} {p : Program K V α}
  (hb : ∀ k v, below k = .ok v → ∃ n, settle rules inputs n k = .ok v)
include hb

theorem Program.Relays.reaches_of_ok (hp : p.Relays fun _ => True) {a : α}
    (h : p.evalWith below = .ok a) : ∃ ks, p.Reaches rules inputs ks (.done a) := by
  induction hp with
  | done b =>
    cases h
    exact ⟨[], .here _⟩
  | fail e => cases h
  | @read k next hfail _ ih =>
    simp only [evalWith] at h
    cases hk : below k with
    | ok v =>
      simp only [hk] at h
      obtain ⟨n, hn⟩ := hb k v hk
      obtain ⟨ks, hks⟩ := ih v h
      exact ⟨k :: ks, .read hn hks⟩
    | error halt =>
      cases halt with
      | failed e => simp [hk, hfail e trivial, evalWith] at h
      | tooDeep => simp [hk] at h
  | cancel _ ih =>
    obtain ⟨ks, hks⟩ := ih h
    exact ⟨ks, .cancel hks⟩

/-- A program that fails does so by itself or passes on the failure of a node it comes to read. -/
theorem Program.Relays.reaches_of_failed (hp : p.Relays fun _ => True) {e : Failure K}
    (h : p.evalWith below = .error (.failed e)) :
    (∃ ks, p.Reaches rules inputs ks (.fail e)) ∨
      ∃ ks d next, p.Reaches rules inputs ks (.read d next) ∧ below d = .error (.failed e) := by
  induction hp with
  | done b => cases h
  | fail e' =>
    cases h
    exact .inl ⟨[], .here _⟩
  | @read k next hfail _ ih =>
    simp only [evalWith] at h
    cases hk : below k with
    | ok v =>
      simp only [hk] at h
      obtain ⟨n, hn⟩ := hb k v hk
      rcases ih v h with ⟨ks, hks⟩ | ⟨ks, d, last, hks, hd⟩
      · exact .inl ⟨k :: ks, .read hn hks⟩
      · exact .inr ⟨k :: ks, d, last, .read hn hks, hd⟩
    | error halt =>
      cases halt with
      | failed e' =>
        simp only [hk, hfail e' trivial, evalWith, Except.error.injEq, Halt.failed.injEq] at h
        subst h
        exact .inr ⟨[], k, next, .here _, hk⟩
      | tooDeep => simp [hk] at h
  | cancel _ ih =>
    rcases ih h with ⟨ks, hks⟩ | ⟨ks, d, last, hks, hd⟩
    · exact .inl ⟨ks, .cancel hks⟩
    · exact .inr ⟨ks, d, last, .cancel hks, hd⟩

end

section
variable [BEq K] (hF : ∀ k p, rules k = .query p → p.Relays fun _ => True)
include hF

theorem settles_of_scratch_ok {n : Nat} {computing : List K} {k : K} {v : V k}
    (h : scratch rules inputs n computing k = .ok v) : ∃ m, settle rules inputs m k = .ok v := by
  induction n generalizing computing k with
  | zero =>
    unfold scratch at h
    cases hk : rules k with
    | input absent =>
      simp only [hk] at h
      exact ⟨0, (settle_input hk 0).trans h⟩
    | refused e => simp [hk] at h
    | query p =>
      simp only [hk] at h
      split at h <;> cases h
  | succ n ih =>
    unfold scratch at h
    cases hk : rules k with
    | input absent =>
      simp only [hk] at h
      exact ⟨0, (settle_input hk 0).trans h⟩
    | refused e => simp [hk] at h
    | query p =>
      simp only [hk] at h
      split at h
      · cases h
      · obtain ⟨ks, hks⟩ := (hF k p hk).reaches_of_ok (fun d w hw => ih hw) h
        exact settles_of_reaches_done hk hks

variable [LawfulBEq K]

/-- Memo-free evaluation fails as the node does, or on the way to a node that it is computing or
that is on a loop. -/
theorem settles_of_scratch_failed {n : Nat} {computing : List K} {k : K} {e : Failure K}
    (h : scratch rules inputs n computing k = .error (.failed e)) :
    (∃ m, settle rules inputs m k = .error (.failed e)) ∨
      (∃ c, e = .cycle c) ∧ ∃ C : List K, k ∈ C ∧
        ∀ x ∈ C, x ∈ computing ∨ ∃ d ∈ C, Follows rules inputs x d := by
  induction n generalizing computing k with
  | zero =>
    unfold scratch at h
    cases hk : rules k with
    | input absent => simp [hk] at h
    | refused e' =>
      simp only [hk] at h
      exact .inl ⟨0, (settle_refused hk 0).trans h⟩
    | query p =>
      simp only [hk] at h
      split at h
      · rename_i hc
        cases h
        exact .inr ⟨⟨k, rfl⟩, [k], by simp, by simp_all⟩
      · cases h
  | succ n ih =>
    unfold scratch at h
    cases hk : rules k with
    | input absent => simp [hk] at h
    | refused e' =>
      simp only [hk] at h
      exact .inl ⟨0, (settle_refused hk 0).trans h⟩
    | query p =>
      simp only [hk] at h
      split at h
      · rename_i hc
        cases h
        exact .inr ⟨⟨k, rfl⟩, [k], by simp, by simp_all⟩
      · rcases (hF k p hk).reaches_of_failed (fun d w hw => settles_of_scratch_ok hF hw) h with
          ⟨ks, hks⟩ | ⟨ks, d, next, hks, hd⟩
        · exact .inl (settles_of_reaches_fail hk hks)
        · rcases ih hd with ⟨m, hm⟩ | ⟨hc, C, hdC, hC⟩
          · exact .inl (settles_of_failed_read hk hks hm)
          · refine .inr ⟨hc, k :: C, List.mem_cons_self, ?_⟩
            have hkd : Follows rules inputs k d := ⟨p, ks, next, hk, hks⟩
            intro x hx
            rcases List.mem_cons.mp hx with rfl | hx
            · exact .inr ⟨d, List.mem_cons_of_mem _ hdC, hkd⟩
            · rcases hC x hx with hx | ⟨c, hcC, hxc⟩
              · rcases List.mem_cons.mp hx with rfl | hx
                · exact .inr ⟨d, List.mem_cons_of_mem _ hdC, hkd⟩
                · exact .inl hx
              · exact .inr ⟨c, List.mem_cons_of_mem _ hcC, hxc⟩

end

variable [∀ k, BEq (V k)] [Node K] {L : Likeness K V} {s : Store K V}

/-- Rules whose queries end alike on like values, equal values being like. -/
structure Extensional (rules : Rules K V) (L : Likeness K V) : Prop where
  alike : ∀ k p, rules k = .query p → p.Alike L SameKind (L.like k) p
  refl : ∀ k v, L.like k v v
  of_beq : ∀ k (v w : V k), v == w → L.like k v w

/-- Where equality of values is equality, all rules are extensional. -/
theorem extensional_of_lawful [∀ k, LawfulBEq (V k)] (rules : Rules K V) :
    Extensional rules .eq where
  alike _ _ _ := .self (fun _ => rfl) fun _ => rfl
  refl _ _ := rfl
  of_beq _ _ _ he := eq_of_beq he

theorem Extensional.orderly (h : Extensional rules L)
    (hR : ∀ k p, rules k = .query p → p.Relays IsCancellation) : Orderly rules L where
  absent k a _ := h.refl k a
  alike := h.alike
  relays := hR
  faithful k _ v w _ _ _ he := h.of_beq k v w he

/-- Rules whose queries, moreover, pass every failure on. -/
structure Propagating (rules : Rules K V) (L : Likeness K V) : Prop extends
    Extensional rules L where
  relays : ∀ k p, rules k = .query p → p.Relays fun _ => True

theorem Propagating.orderly (h : Propagating rules L) : Orderly rules L :=
  h.toExtensional.orderly fun k p hk => (h.relays k p hk).mono fun _ _ => trivial

theorem Propagating.firm (h : Propagating rules L) (inputs : Inputs K V) (k : K) :
    Firm rules inputs k :=
  ⟨_, steady_of_relays h.relays inputs, trivial⟩

/-- Reads of a node end, at every sufficient depth, as memo-free evaluation of the inputs of the
store does: with a like value, or with a failure of the same class. -/
structure Fresh [BEq K] [Coherent K V] (rules : Rules K V) (L : Likeness K V) (s : Store K V)
    (k : K) : Prop where
  ok : ∀ n v, scratch rules s.input? n [] k = .ok v → ∃ N, ∀ depth, N ≤ depth →
    ∃ w, ((Program.get k).run rules depth s).1 = .ok w ∧ L.like k v w
  failed : ∀ n e, scratch rules s.input? n [] k = .error (.failed e) → ∃ N, ∀ depth, N ≤ depth →
    ∃ e', ((Program.get k).run rules depth s).1 = .error (.failed e') ∧ e'.kind = e.kind

variable [BEq K] [LawfulBEq K]

namespace Propagating

theorem readsFirmly (h : Propagating rules L) (history : List (Move K V)) (s : Store K V) :
    ReadsFirmly rules history s := by
  induction history generalizing s with
  | nil => trivial
  | cons move history ih =>
    refine ⟨?_, ih _⟩
    cases move with
    | run depth program => exact program.within_univ.mono fun k _ => h.firm s.input? k
    | _ => trivial

theorem follow (h : Propagating rules L) (history : List (Move K V)) (hs : AtRest rules L s) :
    AtRest rules L (follow rules history s) :=
  hs.follow h.orderly h.refl (h.readsFirmly history s)

/-- Outside a pass, a read of a node on a loop ends with the failure that it reads itself. -/
theorem cycle_of_loop (h : Propagating rules L) (hs : AtRest rules L s) (ht : s.token = none)
    {C : List K} (hC : Loop rules s.input? C) {k : K} (hk : k ∈ C) :
    ∃ N, ∀ depth, N ≤ depth → ∃ c, (fetch rules depth k s).1 = .error (.failed (.cycle c)) := by
  obtain ⟨past, hs'⟩ := hs.exists_sound
  rw [← hs'.past_eq] at hC
  have hloop : InLoop rules L past s.revision C s :=
    ⟨rfl, hs', fun a ha => by rw [hs.idle] at ha; cases ha⟩
  obtain ⟨b, l, hb⟩ := exists_bounded hs' k
  obtain ⟨N, hN⟩ := halts_of_loop h.orderly h.relays hC C b l k s hk hloop
    (fun x hx => .inl hx) hb
  refine ⟨N, fun depth hle => ?_⟩
  rw [fetch_mono hle hN]
  have hserved := (hloop.fetch h.orderly h.relays hC N k).1
  have hstuck := hC.not_settles hk
  cases hr : (fetch rules N k s).1 with
  | ok node =>
    obtain ⟨-, m, v, hv, -⟩ := hserved.ok node hr
    exact absurd ⟨m, by rw [hv]; exact ended_ok v⟩ hstuck
  | error halt =>
    cases hserved.halts halt hr with
    | cancelled hg =>
      rw [Store.cancelled?_of_token_none (hserved.advances.token ht)] at hg
      cases hg
    | @settled m e e' hm he => exact absurd ⟨m, by rw [hm]; exact ended_failed e'⟩ hstuck
    | @cycle c hc => exact ⟨c, rfl⟩
    | tooDeep hd =>
      rw [hr] at hN
      exact absurd hN not_ended_tooDeep

end Propagating

theorem Propagating.fresh (h : Propagating rules L) (hs : AtRest rules L s) (ht : s.token = none)
    (k : K) : Fresh rules L s k where
  ok n v hv := by
    obtain ⟨N, hN⟩ := settles_of_scratch_ok h.relays hv
    refine ⟨N, fun depth hle => ?_⟩
    have hagree := hs.agree_of_ended h.orderly (steady_of_relays h.relays _) ht trivial hle
      (by rw [hN]; exact ended_ok v)
    rw [hN] at hagree
    rw [run_get hs.idle]
    exact hagree.of_ok
  failed n e he := by
    rcases settles_of_scratch_failed h.relays he with ⟨N, hN⟩ | ⟨⟨c, rfl⟩, C, hk, hC⟩
    · refine ⟨N, fun depth hle => ?_⟩
      have hagree := hs.agree_of_ended h.orderly (steady_of_relays h.relays _) ht trivial hle
        (by rw [hN]; exact ended_failed e)
      rw [hN] at hagree
      rw [run_get hs.idle]
      obtain ⟨e', he', hkind⟩ := hagree.of_failed
      exact ⟨e', he', hkind.symm⟩
    · have hloop : Loop rules s.input? C := fun x hx => (hC x hx).resolve_left (by simp)
      obtain ⟨N, hN⟩ := h.cycle_of_loop hs ht hloop hk
      refine ⟨N, fun depth hle => ?_⟩
      obtain ⟨c', hc'⟩ := hN depth hle
      rw [run_get hs.idle, hc']
      exact ⟨.cycle c', rfl, rfl⟩

end SceneCodegen.Graph
