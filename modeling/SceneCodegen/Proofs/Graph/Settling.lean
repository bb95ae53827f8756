import SceneCodegen.Graph.Evaluation

/-!
# Settling

What a node comes to when it is computed from nothing and every failed read ends the query that made
it. No cycle is looked for, so a node on a cycle never settles. Settling is monotone in the depth,
and while queries pass failures on, reading with a list of computing nodes settles no differently.
-/
namespace SceneCodegen.Graph

variable {K : Type} {V : K → Type} {α β : Type}

/-- The values of inputs; an input that is not set has none. -/
abbrev Inputs (K : Type) (V : K → Type) := (k : K) → Option (V k)

/-- What a program reads and ends with when each node has the outcome given and no failed read is
made good. -/
def Program.settleWith (below : (k : K) → Except (Halt K) (V k)) :
    Program K V α → Except (Halt K) (List K × α)
  | done a => .ok ([], a)
  | fail e => .error (.failed e)
  | read k next =>
    match below k with
    | .ok v => ((next (.ok v)).settleWith below).map fun (ks, a) => (k :: ks, a)
    | .error halt => .error halt
  | cancel next => next.settleWith below

/-- The outcome of a node under given inputs, reads being nested at most `depth` queries deep. -/
def settle (rules : Rules K V) (inputs : Inputs K V) : Nat → (k : K) → Except (Halt K) (V k)
  | depth, k =>
    match rules k with
    | .input absent => .ok ((inputs k).getD absent)
    | .refused e => .error (.failed e)
    | .query program =>
      match depth with
      | 0 => .error .tooDeep
      | depth + 1 => (program.settleWith (settle rules inputs depth)).map Prod.snd

/-- An outcome that a greater depth does not change. -/
def Ended (r : Except (Halt K) α) : Prop := r ≠ .error .tooDeep

@[simp] theorem ended_ok (a : α) : Ended (.ok a : Except (Halt K) α) := by simp [Ended]

@[simp] theorem ended_failed (e : Failure K) :
    Ended (.error (.failed e) : Except (Halt K) α) := by simp [Ended]

@[simp] theorem not_ended_tooDeep : ¬ Ended (.error .tooDeep : Except (Halt K) α) := by
  simp [Ended]

theorem ended_error_iff {halt : Halt K} :
    Ended (.error halt : Except (Halt K) α) ↔ halt ≠ .tooDeep := by simp [Ended]

theorem ended_map_iff (f : α → β) (r : Except (Halt K) α) : Ended (r.map f) ↔ Ended r := by
  cases r with
  | ok a => simp [Except.map]
  | error halt => simp [Except.map, Ended]

theorem map_eq_ok_iff {f : α → β} {r : Except (Halt K) α} {b : β} :
    r.map f = .ok b ↔ ∃ a, r = .ok a ∧ f a = b := by
  cases r <;> simp [Except.map]

theorem map_eq_error_iff {f : α → β} {r : Except (Halt K) α} {halt : Halt K} :
    r.map f = .error halt ↔ r = .error halt := by
  cases r <;> simp [Except.map]

/-- A program that ends by way of some outcomes ends so whenever nodes that ended keep theirs. -/
theorem Program.settleWith_mono {below below' : (k : K) → Except (Halt K) (V k)}
    (h : ∀ k, Ended (below k) → below' k = below k) (p : Program K V α)
    (hr : Ended (p.settleWith below)) : p.settleWith below' = p.settleWith below := by
  induction p with
  | done a => rfl
  | fail e => rfl
  | read k next ih =>
    have hk : Ended (below k) := by
      intro he
      simp [settleWith, he] at hr
    simp only [settleWith, h k hk] at hr ⊢
    cases hb : below k with
    | error halt => rfl
    | ok v =>
      simp only [hb, ended_map_iff] at hr
      simp only [ih (.ok v) hr]
  | cancel next ih => exact ih hr

theorem Program.exists_of_mem_reads {below : (k : K) → Except (Halt K) (V k)} (p : Program K V α)
    {ks : List K} {a : α} (hp : p.settleWith below = .ok (ks, a)) {d : K} (hd : d ∈ ks) :
    ∃ v, below d = .ok v := by
  induction p generalizing ks a with
  | done b =>
    simp only [settleWith, Except.ok.injEq, Prod.mk.injEq] at hp
    rw [← hp.1] at hd
    cases hd
  | fail e => cases hp
  | read k next ih =>
    simp only [settleWith] at hp
    cases hv : below k with
    | error halt => simp [hv] at hp
    | ok v =>
      simp only [hv] at hp
      obtain ⟨⟨ls, b⟩, hls, heq⟩ := map_eq_ok_iff.mp hp
      simp only [Prod.mk.injEq] at heq
      rw [← heq.1] at hd
      rcases List.mem_cons.mp hd with rfl | hd
      · exact ⟨v, hv⟩
      · exact ih (.ok v) hls hd
  | cancel next ih => exact ih hp hd

variable {rules : Rules K V} {inputs : Inputs K V}

theorem settle_input {k : K} {absent : V k} (h : rules k = .input absent) (n : Nat) :
    settle rules inputs n k = .ok ((inputs k).getD absent) := by
  cases n <;> simp [settle, h]

theorem settle_refused {k : K} {e : Failure K} (h : rules k = .refused e) (n : Nat) :
    settle rules inputs n k = .error (.failed e) := by
  cases n <;> simp [settle, h]

theorem settle_zero {k : K} {p : Program K V (V k)} (h : rules k = .query p) :
    settle rules inputs 0 k = .error .tooDeep := by simp [settle, h]

theorem settle_succ {k : K} {p : Program K V (V k)} (h : rules k = .query p) (n : Nat) :
    settle rules inputs (n + 1) k =
      (p.settleWith (settle rules inputs n)).map Prod.snd := by simp [settle, h]

theorem settle_step (n : Nat) (k : K) (hr : Ended (settle rules inputs n k)) :
    settle rules inputs (n + 1) k = settle rules inputs n k := by
  induction n generalizing k with
  | zero =>
    cases hk : rules k with
    | input absent => simp [settle_input hk]
    | refused e => simp [settle_refused hk]
    | query p => simp [settle_zero hk] at hr
  | succ n ih =>
    cases hk : rules k with
    | input absent => simp [settle_input hk]
    | refused e => simp [settle_refused hk]
    | query p =>
      rw [settle_succ hk, ended_map_iff] at hr
      rw [settle_succ hk, settle_succ hk, p.settleWith_mono ih hr]

/-- What a node has come to at one depth it comes to at every greater depth. -/
theorem settle_mono {n m : Nat} (h : n ≤ m) {k : K} (hr : Ended (settle rules inputs n k)) :
    settle rules inputs m k = settle rules inputs n k := by
  induction h with
  | refl => rfl
  | @step m _ ih => rw [settle_step m k (by rw [ih]; exact hr), ih]

theorem settle_unique {n m : Nat} {k : K} (hn : Ended (settle rules inputs n k))
    (hm : Ended (settle rules inputs m k)) :
    settle rules inputs n k = settle rules inputs m k := by
  rcases Nat.le_total n m with h | h
  · exact (settle_mono h hn).symm
  · exact settle_mono h hm

theorem settle_ok_mono {n m : Nat} (h : n ≤ m) {k : K} {v : V k}
    (hv : settle rules inputs n k = .ok v) : settle rules inputs m k = .ok v := by
  rw [settle_mono h (by rw [hv]; exact ended_ok v), hv]

theorem settle_ok_unique {n m : Nat} {k : K} {v w : V k}
    (hv : settle rules inputs n k = .ok v) (hw : settle rules inputs m k = .ok w) : v = w := by
  have h : settle rules inputs n k = settle rules inputs m k := settle_unique
    (by rw [hv]; exact ended_ok v) (by rw [hw]; exact ended_ok w)
  rw [hv, hw] at h
  exact Except.ok.inj h

/-- A query ends no earlier than one level above what it reads. -/
theorem exists_succ_of_ended {k : K} {p : Program K V (V k)} (h : rules k = .query p) {n : Nat}
    (hr : Ended (settle rules inputs n k)) :
    ∃ m, n = m + 1 ∧ Ended (p.settleWith (settle rules inputs m)) := by
  cases n with
  | zero => simp [settle_zero h] at hr
  | succ m => exact ⟨m, rfl, by rwa [settle_succ h, ended_map_iff] at hr⟩

theorem settleWith_unique (p : Program K V α) {n m : Nat}
    (hn : Ended (p.settleWith (settle rules inputs n)))
    (hm : Ended (p.settleWith (settle rules inputs m))) :
    p.settleWith (settle rules inputs n) = p.settleWith (settle rules inputs m) := by
  rcases Nat.le_total n m with h | h
  · exact (p.settleWith_mono (fun k hk => settle_mono h hk) hn).symm
  · exact p.settleWith_mono (fun k hk => settle_mono h hk) hm

/-- What was read for a value settled before the node that read it. -/
theorem ended_of_mem_reads {k : K} {p : Program K V (V k)} (hk : rules k = .query p) {n l : Nat}
    {ks : List K} {v : V k} (hp : p.settleWith (settle rules inputs n) = .ok (ks, v))
    (hl : Ended (settle rules inputs l k)) {d : K} (hd : d ∈ ks) :
    ∃ m, m < l ∧ Ended (settle rules inputs m d) := by
  obtain ⟨m, rfl, hm⟩ := exists_succ_of_ended hk hl
  rw [settleWith_unique p (by rw [hp]; exact ended_ok _) hm] at hp
  obtain ⟨w, hw⟩ := p.exists_of_mem_reads hp hd
  exact ⟨m, Nat.lt_succ_self m, by rw [hw]; exact ended_ok w⟩

end SceneCodegen.Graph
