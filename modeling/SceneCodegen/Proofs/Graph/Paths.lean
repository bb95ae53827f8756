import SceneCodegen.Proofs.Graph.Likeness
import SceneCodegen.Proofs.Graph.Relaying

/-!
# Paths

How far a program gets under given inputs by reading nodes that settle, and with it what a node that
settles has to read. What was read on the way to a value under earlier inputs is read again, in
order, up to the first node whose value is no longer alike.
-/
namespace SceneCodegen.Graph

variable {K : Type} {V : K → Type} {α β : Type}

/-- A program gets to what is left of it by reading nodes that settle. -/
inductive Program.Reaches (rules : Rules K V) (inputs : Inputs K V) :
    Program K V α → List K → Program K V α → Prop
  | here (p : Program K V α) : Reaches rules inputs p [] p
  | read {k : K} {next : Except (Failure K) (V k) → Program K V α} {n : Nat} {v : V k}
      {ks : List K} {q : Program K V α} (hv : settle rules inputs n k = .ok v)
      (h : Reaches rules inputs (next (.ok v)) ks q) :
      Reaches rules inputs (.read k next) (k :: ks) q
  | cancel {p q : Program K V α} {ks : List K} (h : Reaches rules inputs p ks q) :
      Reaches rules inputs (.cancel p) ks q

/-- What a program ends with after having read some nodes already. -/
def afterReads (ks : List K) : Except (Halt K) (List K × α) → Except (Halt K) (List K × α) :=
  Except.map fun (ls, a) => (ks ++ ls, a)

theorem ended_afterReads_iff (ks : List K) (r : Except (Halt K) (List K × α)) :
    Ended (afterReads ks r) ↔ Ended r := ended_map_iff _ r

theorem afterReads_cons (k : K) (ks : List K) (r : Except (Halt K) (List K × α)) :
    (afterReads ks r).map (fun (ls, a) => (k :: ls, a)) = afterReads (k :: ks) r := by
  cases r <;> rfl

namespace Program.Reaches
variable {rules : Rules K V} {inputs : Inputs K V} {p q : Program K V α} {ks : List K}

theorem trans {r : Program K V α} {ls : List K} (h : p.Reaches rules inputs ks q)
    (h' : q.Reaches rules inputs ls r) : p.Reaches rules inputs (ks ++ ls) r := by
  induction h with
  | here p => exact h'
  | read hv _ ih => exact .read hv (ih h')
  | cancel _ ih => exact .cancel (ih h')

theorem snoc {k : K} {next : Except (Failure K) (V k) → Program K V α} {n : Nat} {v : V k}
    (h : p.Reaches rules inputs ks (.read k next)) (hv : settle rules inputs n k = .ok v) :
    p.Reaches rules inputs (ks ++ [k]) (next (.ok v)) :=
  h.trans (.read hv (.here _))

/-- Once the nodes on the way have settled, a program ends as what is left of it does. -/
theorem exists_settleWith (h : p.Reaches rules inputs ks q) :
    ∃ N, ∀ n, N ≤ n → p.settleWith (settle rules inputs n) =
      afterReads ks (q.settleWith (settle rules inputs n)) := by
  induction h with
  | here p =>
    refine ⟨0, fun n _ => ?_⟩
    cases p.settleWith (settle rules inputs n) <;> rfl
  | @read k next m v ks q hv _ ih =>
    obtain ⟨N, hN⟩ := ih
    refine ⟨max N m, fun n hn => ?_⟩
    have hk := settle_ok_mono (Nat.le_trans (Nat.le_max_right N m) hn) hv
    simp only [settleWith, hk, hN n (Nat.le_trans (Nat.le_max_left N m) hn)]
    exact afterReads_cons k ks _
  | cancel _ ih => exact ih

/-- A program that has ended did so as what is left of it does. -/
theorem settleWith_eq (h : p.Reaches rules inputs ks q) {n : Nat}
    (hn : Ended (p.settleWith (settle rules inputs n))) :
    p.settleWith (settle rules inputs n) =
      afterReads ks (q.settleWith (settle rules inputs n)) := by
  induction h with
  | here p => cases p.settleWith (settle rules inputs n) <;> rfl
  | @read k next m v ks q hv h ih =>
    have hk : Ended (settle rules inputs n k) := by
      intro he
      simp [settleWith, he] at hn
    have hk := (settle_unique hk (by rw [hv]; exact ended_ok v)).trans hv
    simp only [settleWith, hk, ended_map_iff] at hn ⊢
    rw [ih hn]
    exact afterReads_cons k ks _
  | cancel _ ih => exact ih hn

theorem ended_read {k : K} {next : Except (Failure K) (V k) → Program K V α}
    (h : p.Reaches rules inputs ks (.read k next)) {n : Nat}
    (hn : Ended (p.settleWith (settle rules inputs n))) : Ended (settle rules inputs n k) := by
  rw [h.settleWith_eq hn, ended_afterReads_iff] at hn
  intro he
  simp [settleWith, he] at hn

theorem settleWith_done {a : α} (h : p.Reaches rules inputs ks (.done a)) :
    ∃ n, p.settleWith (settle rules inputs n) = .ok (ks, a) := by
  obtain ⟨n, hn⟩ := h.exists_settleWith
  refine ⟨n, (hn n (Nat.le_refl n)).trans ?_⟩
  simp [settleWith, afterReads, Except.map]

theorem settleWith_fail {e : Failure K} (h : p.Reaches rules inputs ks (.fail e)) :
    ∃ n, p.settleWith (settle rules inputs n) = .error (.failed e) := by
  obtain ⟨n, hn⟩ := h.exists_settleWith
  exact ⟨n, hn n (Nat.le_refl n)⟩

theorem settleWith_failed_read {k : K} {next : Except (Failure K) (V k) → Program K V α}
    (h : p.Reaches rules inputs ks (.read k next)) {m : Nat} {e : Failure K}
    (he : settle rules inputs m k = .error (.failed e)) :
    ∃ n, p.settleWith (settle rules inputs n) = .error (.failed e) := by
  obtain ⟨N, hN⟩ := h.exists_settleWith
  refine ⟨max N m, (hN _ (Nat.le_max_left N m)).trans ?_⟩
  have hk := settle_mono (Nat.le_max_right N m) (k := k) (by rw [he]; exact ended_failed e)
  simp [settleWith, hk, he, afterReads, Except.map]

theorem bind {a : α} {f : α → Program K V β} {ls : List K} {r : Program K V β}
    (h : p.Reaches rules inputs ks (.done a)) (h' : (f a).Reaches rules inputs ls r) :
    (p.bind f).Reaches rules inputs (ks ++ ls) r := by
  generalize hq : Program.done a = q at h
  induction h with
  | here p =>
    subst hq
    exact h'
  | read hv _ ih => exact .read hv (ih hq)
  | cancel _ ih => exact .cancel (ih hq)

/-- A program that reads only nodes of a set gets to reads of such nodes. -/
theorem within {T : K → Prop} (h : p.Reaches rules inputs ks q) (hp : p.Within T) :
    q.Within T := by
  induction h with
  | here p => exact hp
  | read _ _ ih =>
    cases hp with
    | read _ hnext => exact ih (hnext _)
  | cancel _ ih =>
    cases hp with
    | cancel hp => exact ih hp

end Program.Reaches

/-- Reading only nodes that settle, a program ends with a value. -/
def Program.Completes (rules : Rules K V) (inputs : Inputs K V) (p : Program K V α) : Prop :=
  ∃ ks a, p.Reaches rules inputs ks (.done a)

namespace Program.Completes
variable {rules : Rules K V} {inputs : Inputs K V}

theorem done (a : α) : (Program.done a : Program K V α).Completes rules inputs :=
  ⟨[], a, .here _⟩

theorem read {k : K} {next : Except (Failure K) (V k) → Program K V α} {n : Nat} {v : V k}
    (hv : settle rules inputs n k = .ok v) (h : (next (.ok v)).Completes rules inputs) :
    (Program.read k next).Completes rules inputs := by
  obtain ⟨ks, a, ha⟩ := h
  exact ⟨k :: ks, a, .read hv ha⟩

theorem bind {p : Program K V α} (h : p.Completes rules inputs) {f : α → Program K V β}
    (hf : ∀ a, (f a).Completes rules inputs) : (p.bind f).Completes rules inputs := by
  obtain ⟨ks, a, ha⟩ := h
  obtain ⟨ls, b, hb⟩ := hf a
  exact ⟨ks ++ ls, b, ha.bind hb⟩

theorem mapM {f : α → Program K V β} (hf : ∀ a, (f a).Completes rules inputs) (l : List α) :
    (l.mapM f).Completes rules inputs := by
  induction l with
  | nil =>
    rw [List.mapM_nil]
    exact .done []
  | cons a l ih =>
    rw [List.mapM_cons]
    exact (hf a).bind fun b => ih.bind fun bs => .done (b :: bs)

theorem settles {k : K} {p : Program K V (V k)} (hk : rules k = .query p)
    (h : p.Completes rules inputs) : ∃ n v, settle rules inputs n k = .ok v := by
  obtain ⟨ks, v, hreach⟩ := h
  obtain ⟨n, hn⟩ := hreach.settleWith_done
  exact ⟨n + 1, v, by simp [settle_succ hk, hn, Except.map]⟩

end Program.Completes

section
variable {rules : Rules K V} {inputs : Inputs K V} {k : K} {p : Program K V (V k)} {ks : List K}

theorem settles_of_reaches_done (hk : rules k = .query p) {v : V k}
    (h : p.Reaches rules inputs ks (.done v)) : ∃ n, settle rules inputs n k = .ok v := by
  obtain ⟨n, hn⟩ := h.settleWith_done
  exact ⟨n + 1, by simp [settle_succ hk, hn, Except.map]⟩

theorem settles_of_reaches_fail (hk : rules k = .query p) {e : Failure K}
    (h : p.Reaches rules inputs ks (.fail e)) :
    ∃ n, settle rules inputs n k = .error (.failed e) := by
  obtain ⟨n, hn⟩ := h.settleWith_fail
  exact ⟨n + 1, by simp [settle_succ hk, hn, Except.map]⟩

variable {d : K} {next : Except (Failure K) (V d) → Program K V (V k)}

theorem settles_of_failed_read (hk : rules k = .query p)
    (h : p.Reaches rules inputs ks (.read d next)) {m : Nat} {e : Failure K}
    (he : settle rules inputs m d = .error (.failed e)) :
    ∃ n, settle rules inputs n k = .error (.failed e) := by
  obtain ⟨n, hn⟩ := h.settleWith_failed_read he
  exact ⟨n + 1, by simp [settle_succ hk, hn, Except.map]⟩

/-- What a node reads settles before the node does. -/
theorem ended_read_of_ended (hk : rules k = .query p)
    (h : p.Reaches rules inputs ks (.read d next)) {n : Nat}
    (hn : Ended (settle rules inputs n k)) : ∃ m, m < n ∧ Ended (settle rules inputs m d) := by
  obtain ⟨m, rfl, hm⟩ := exists_succ_of_ended hk hn
  exact ⟨m, Nat.lt_succ_self m, h.ended_read hm⟩

/-- A node with a value reads nodes with values. -/
theorem settles_read_of_settles (hk : rules k = .query p)
    (h : p.Reaches rules inputs ks (.read d next)) {n : Nat} {v : V k}
    (hv : settle rules inputs n k = .ok v) : ∃ m w, settle rules inputs m d = .ok w := by
  obtain ⟨m, rfl, hm⟩ := exists_succ_of_ended hk (n := n) (by rw [hv]; exact ended_ok v)
  refine ⟨m, ?_⟩
  rw [settle_succ hk, h.settleWith_eq hm] at hv
  simp only [Program.settleWith, afterReads] at hv
  cases hd : settle rules inputs m d with
  | ok w => exact ⟨w, rfl⟩
  | error halt => simp [hd, Except.map] at hv

end

/-- What stands before an element of a list without repetitions stood before it in the list. -/
theorem exists_split_of_eraseDups [BEq K] [LawfulBEq K] {ks first last : List K} {d : K}
    (h : ks.eraseDups = first ++ d :: last) :
    ∃ before after, ks = before ++ d :: after ∧ ∀ x ∈ before, x ∈ first := by
  have hd : d ∈ ks := List.mem_eraseDups.mp (by rw [h]; simp)
  obtain ⟨before, after, rfl, hnot⟩ := List.eq_append_cons_of_mem hd
  refine ⟨before, after, rfl, fun x hx => ?_⟩
  rw [List.eraseDups_append] at h
  have hx' : x ∈ before.eraseDups := List.mem_eraseDups.mpr hx
  have hnot' : d ∉ before.eraseDups := fun hd => hnot (List.mem_eraseDups.mp hd)
  rcases List.append_eq_append_iff.mp h with ⟨as, hfirst, -⟩ | ⟨bs, hbefore, hrest⟩
  · rw [hfirst]
    exact List.mem_append_left _ hx'
  · cases bs with
    | nil =>
      rw [List.append_nil] at hbefore
      rwa [← hbefore]
    | cons b bs =>
      rw [List.cons_append, List.cons.injEq] at hrest
      rw [hbefore, ← hrest.1] at hnot'
      simp at hnot'

namespace Program.Alike
variable {rules : Rules K V} {inputs : Inputs K V} {L : Likeness K V}
  {E : Failure K → Failure K → Prop} {R : α → α → Prop}
  {below : (k : K) → Except (Halt K) (V k)}

/-- While the nodes a program read have like values again, it gets to the node it read next. -/
theorem reaches_read {p q : Program K V α} (h : p.Alike L E R q) {ks ls : List K} {d : K} {a : α}
    (hp : p.settleWith below = .ok (ks ++ d :: ls, a))
    (hks : ∀ x ∈ ks, ∀ v, below x = .ok v →
      ∃ n w, settle rules inputs n x = .ok w ∧ L.like x v w) :
    ∃ next, q.Reaches rules inputs ks (.read d next) := by
  induction h generalizing ks with
  | done h => simp [Program.settleWith] at hp
  | fail h => simp [Program.settleWith] at hp
  | @read k next next' h ih =>
    simp only [Program.settleWith] at hp
    cases hv : below k with
    | error halt => simp [hv] at hp
    | ok v =>
      simp only [hv] at hp
      obtain ⟨⟨rs, b⟩, hr, hrs⟩ := map_eq_ok_iff.mp hp
      cases ks with
      | nil =>
        simp only [List.nil_append, Prod.mk.injEq, List.cons.injEq] at hrs
        obtain ⟨⟨rfl, -⟩, -⟩ := hrs
        exact ⟨next', .here _⟩
      | cons x ks =>
        simp only [List.cons_append, Prod.mk.injEq, List.cons.injEq] at hrs
        obtain ⟨⟨rfl, rfl⟩, rfl⟩ := hrs
        obtain ⟨n, w, hw, hvw⟩ := hks k List.mem_cons_self v hv
        obtain ⟨last, hlast⟩ := ih v w hvw hr fun x hx => hks x (List.mem_cons_of_mem k hx)
        exact ⟨last, .read hw hlast⟩
  | cancel _ ih =>
    obtain ⟨last, hlast⟩ := ih hp hks
    exact ⟨last, .cancel hlast⟩

/-- If all nodes a program read have like values again, it ends alike. -/
theorem reaches_done {p q : Program K V α} (h : p.Alike L E R q) {ks : List K} {a : α}
    (hp : p.settleWith below = .ok (ks, a))
    (hks : ∀ x ∈ ks, ∀ v, below x = .ok v →
      ∃ n w, settle rules inputs n x = .ok w ∧ L.like x v w) :
    ∃ b, q.Reaches rules inputs ks (.done b) ∧ R a b := by
  induction h generalizing ks with
  | @done a' b h =>
    simp only [Program.settleWith, Except.ok.injEq, Prod.mk.injEq] at hp
    obtain ⟨rfl, rfl⟩ := hp
    exact ⟨b, .here _, h⟩
  | fail h => simp [Program.settleWith] at hp
  | @read k next next' h ih =>
    simp only [Program.settleWith] at hp
    cases hv : below k with
    | error halt => simp [hv] at hp
    | ok v =>
      simp only [hv] at hp
      obtain ⟨⟨rs, b⟩, hr, hrs⟩ := map_eq_ok_iff.mp hp
      simp only [Prod.mk.injEq] at hrs
      obtain ⟨rfl, rfl⟩ := hrs
      obtain ⟨n, w, hw, hvw⟩ := hks k List.mem_cons_self v hv
      obtain ⟨c, hc, hac⟩ := ih v w hvw hr fun x hx => hks x (List.mem_cons_of_mem k hx)
      exact ⟨c, .read hw hc, hac⟩
  | cancel _ ih =>
    obtain ⟨b, hb, hab⟩ := ih hp hks
    exact ⟨b, .cancel hb, hab⟩

end Program.Alike
end SceneCodegen.Graph
