import SceneCodegen.Proofs.Generation.Needs
import SceneCodegen.Proofs.Generation.Renewal
import SceneCodegen.Proofs.Graph.Cancellation

/-!
# Completed runs of a generator

What a completed run leaves rests on valid nodes, unless a pass was cancelled since an input last
changed: then nodes may be missing that were computed in that pass and that others were found valid
by. After a completed run the next one executes only what a change of the inputs in between reaches.
-/
namespace SceneCodegen
open SceneCodegen.Graph Generation

namespace Generator

/-- The nodes that a run reads itself. -/
def Root (k : Node) : Prop := k = .generatedFragments ∨ k = .pipelineDiagnostics

theorem resultProgram_within : resultProgram.Within Root := by
  refine .read (.inl rfl) fun r => ?_
  cases r with
  | error e => exact .fail e
  | ok assembled =>
    refine .read (.inr rfl) fun r => ?_
    cases r with
    | error e => exact .fail e
    | ok diagnostics => exact .done _

theorem resultProgram_demands {d : Node} (hd : Root d) :
    resultProgram.Demands (fun _ => Anything) d := by
  rcases hd with rfl | rfl
  · exact .here _
  · exact .later fun assembled _ => .here _

def Supplies.kinds (c : Config) (given : Supplies) : Kinds where
  manifest path := (given.manifest c path).isSome
  scene path := (given.scene c path).isSome
  type name := (given.type name).isSome

namespace Holding
variable {S : Standard} {c : Config} {N : Nat} {given : Supplies} {g : Generator}
  (h : Holding S c N given g)
include h

theorem mem_manifestKeys (path : String) :
    path ∈ (g.store.input? (.manifestFiles .keys)).getD [] ↔ (given.kinds c).manifest path := by
  have hkeys : manifestFilesFamily.valueOf .keys g.store =
      (g.store.input? (.manifestFiles .keys)).getD [] :=
        manifestFilesFamily_faithful.valueOf_eq .keys _
  rw [← hkeys]
  exact h.manifests.mem_keys path

theorem mem_sceneKeys (path : String) :
    path ∈ (g.store.input? (.sceneFiles .keys)).getD [] ↔ (given.kinds c).scene path := by
  have hkeys : sceneFilesFamily.valueOf .keys g.store =
      (g.store.input? (.sceneFiles .keys)).getD [] := sceneFilesFamily_faithful.valueOf_eq .keys _
  rw [← hkeys]
  exact h.scenes.mem_keys path

theorem mem_typeKeys (name : String) :
    name ∈ (g.store.input? (.typeSymbols .keys)).getD [] ↔ (given.kinds c).type name := by
  have hkeys : typeSymbolsFamily.valueOf .keys g.store =
      (g.store.input? (.typeSymbols .keys)).getD [] := typeSymbolsFamily_faithful.valueOf_eq .keys _
  rw [← hkeys]
  exact h.types.mem_keys name

theorem kinds_hold : (given.kinds c).Hold g.store.input? where
  manifest path := (h.mem_manifestKeys path).mp
  scene path := (h.mem_sceneKeys path).mp
  type name := (h.mem_typeKeys name).mp

theorem kinds_listed : (given.kinds c).Listed g.store.input? where
  manifest path := (h.mem_manifestKeys path).mpr
  scene path := (h.mem_sceneKeys path).mpr
  type name := (h.mem_typeKeys name).mpr

/-- A run that is not cancelled ends with a result. -/
theorem run_ends (token : Option Token) :
    (∃ r, (g.run token).1 = .ok r) ∨ token ≠ none ∧ wasCancelled (g.run token).1 = true := by
  rw [h.run_eq]
  exact (h.rest.beginPass token).run_ends (S.orderly .standard c N) (rules_leveled c N)
    resultProgram_safe

theorem exists_result : ∃ r, (g.run none).1 = .ok r :=
  (h.run_ends none).resolve_right fun hcancelled => hcancelled.1 rfl

/-- What a run that ends with a result leaves. -/
theorem run_completed {token : Option Token} {r : GenerationResult}
    (hr : (g.run token).1 = .ok r) :
    (resultProgram.run (Generation.rules c N) depth (g.store.beginPass token)).1 = .ok r ∧
      (g.run token).2.store =
        (resultProgram.run (Generation.rules c N) depth (g.store.beginPass token)).2.endPass
          false := by
  rw [h.run_eq] at hr ⊢
  have hok : (resultProgram.run (Generation.rules c N) depth (g.store.beginPass token)).1 = .ok r :=
    hr
  refine ⟨hok, ?_⟩
  simp only [Program.runPass, hok, wasCancelled]

end Holding

/-- Every pass that was cancelled began at an earlier revision: since then an input changed. -/
def Unbroken (c : Config) (orders : List Order) : Prop :=
  ∀ before token after, orders = before ++ .run token :: after →
    wasCancelled ((follow before { config := c }).run token).1 = true →
      (follow before { config := c }).store.revision <
        (follow orders { config := c }).store.revision

theorem follow_concat (orders : List Order) (order : Order) (g : Generator) :
    follow (orders ++ [order]) g = order.apply (follow orders g) := by
  rw [follow, List.foldl_append]
  rfl

theorem revision_run (token : Option Token) (g : Generator) :
    (g.run token).2.store.revision = g.store.revision :=
  (extends_of_pass g.rules depth token resultProgram g.store).revision

theorem inputs_run (token : Option Token) (g : Generator) :
    (g.run token).2.store.inputs = g.store.inputs :=
  (extends_of_pass g.rules depth token resultProgram g.store).inputs

theorem Unbroken.of_concat {c : Config} {orders : List Order} {order : Order}
    (h : Unbroken c (orders ++ [order]))
    (hsame : (follow (orders ++ [order]) { config := c }).store.revision =
      (follow orders { config := c }).store.revision) : Unbroken c orders := by
  intro before token after heq hcancelled
  rw [← hsame]
  exact h before token (after ++ [order]) (by rw [heq]; simp) hcancelled

section
variable {c : Config} {N : Nat} {given given' : Supplies} {g g' : Generator}

theorem Rooted.endPass {s : Store Node Value} (h : Rooted (Generation.rules c N) s) :
    Rooted (Generation.rules c N) (s.endPass false) :=
  fun k m hm hv => (h k m hm hv).of_memos rfl rfl

/-- After a run that ends with a result all valid memos rest on valid ones if they did before it,
and so does all that the run reads. -/
theorem Holding.rooted_run (h : Holding .coarse c N given g)
    (hg : Rooted (Generation.rules c N) g.store) {token : Option Token} {r : GenerationResult}
    (hr : (g.run token).1 = .ok r) :
    Rooted (Generation.rules c N) (g.run token).2.store ∧
      ∀ d, Root d → Grounded (Generation.rules c N) (g.run token).2.store d := by
  obtain ⟨hok, hstore⟩ := h.run_completed hr
  have hbegin : Rooted (Generation.rules c N) (g.store.beginPass token) :=
    fun k m hm hv => (hg k m hm hv).of_memos rfl rfl
  obtain ⟨-, hrooted, hgrounded⟩ := (h.rest.beginPass token).run_visits (rules_orderly_outlines c N)
    (rules_leveled c N) resultProgram_safe hbegin hok
  rw [hstore]
  exact ⟨Rooted.endPass hrooted,
    fun d hd => (hgrounded d (resultProgram_demands hd)).of_memos rfl rfl⟩

/-- An order of inputs changes only these. -/
theorem Holding.refreshed (h : Holding .coarse c N given g) {order : Order}
    (hsymbols : ∀ t, order = .replaceSymbols t → (Table.keys t).Nodup)
    (hrun : ∀ token, order ≠ .run token) : Refreshed g.store (order.apply g).store := by
  cases order with
  | replaceAssets snapshots => exact (h.replaceAssets_restocked fun _ _ => trivial).refreshed
  | updateAssets snapshots removed =>
    exact (h.updateAssets_restocked (fun _ _ => trivial) removed).refreshed
  | replaceSymbols symbols =>
    exact (h.replaceSymbols_redeclared (hsymbols symbols rfl) fun _ _ _ => trivial).refreshed
  | run token => exact absurd rfl (hrun token)

end

/-- Orders whose tables of types name each type once, no more than `N` of them. -/
def Bounded (N : Nat) (orders : List Order) : Prop :=
  ∀ t, .replaceSymbols t ∈ orders → (Table.keys t).Nodup ∧ t.length ≤ N

theorem Bounded.holding {N : Nat} {orders : List Order} (h : Bounded N orders) (c : Config) :
    Holding .coarse c N (Supplies.ofOrders c orders) (follow orders { config := c }) := by
  refine (holding_empty _ c .standard N).follow (fun _ _ => trivial) fun t ht => ?_
  obtain ⟨hnodup, hfew⟩ := h t ht
  exact ⟨hnodup, fun _ _ _ => trivial, hfew⟩

theorem Unbroken.rooted {c : Config} {N : Nat} {orders : List Order} (h : Unbroken c orders)
    (hbounded : Bounded N orders) :
    Rooted (Generation.rules c N) (follow orders { config := c }).store := by
  induction orders using List.reverseRecOn with
  | nil =>
    intro k m hm
    cases hm
  | append_singleton orders order ih =>
    have hbefore : Bounded N orders := fun t ht => hbounded t (List.mem_append_left _ ht)
    have hheld := hbefore.holding c
    have hnodup : ∀ t, order = .replaceSymbols t → (Table.keys t).Nodup :=
      fun t ht => (hbounded t (by simp [ht])).1
    have hconcat := follow_concat orders order { config := c }
    by_cases hrun : ∃ token, order = .run token
    · obtain ⟨token, rfl⟩ := hrun
      have hrevision : (follow (orders ++ [.run token]) { config := c }).store.revision =
          (follow orders { config := c }).store.revision := by
        rw [hconcat]
        exact revision_run token _
      have hrooted := ih (h.of_concat hrevision) hbefore
      rw [hconcat]
      rcases hheld.run_ends token with ⟨r, hr⟩ | ⟨-, hcancelled⟩
      · exact (hheld.rooted_run hrooted hr).1
      · have hlt := h orders token [] rfl hcancelled
        omega
    · have hrefreshed := hheld.refreshed hnodup fun token ht => hrun ⟨token, ht⟩
      rw [← hconcat] at hrefreshed
      have htidy := hheld.rest.tidy
      rcases Nat.lt_or_eq_of_le hrefreshed.revision with hlt | hsame
      · exact hrefreshed.rooted_of_lt htidy hlt
      · exact hrefreshed.rooted htidy (ih (h.of_concat hsame.symm) hbefore)

/-- A generator after a run that ended with a result and to which nothing is missing. -/
structure Completed (c : Config) (N : Nat) (given : Supplies) (g : Generator) : Prop where
  holding : Holding .coarse c N given g
  finished : ∀ d, Root d → Grounded (Generation.rules c N) g.store d

theorem Unbroken.completed {c : Config} {N : Nat} {orders : List Order} (h : Unbroken c orders)
    (hbounded : Bounded N orders) {token : Option Token} {r : GenerationResult}
    (hr : ((follow orders { config := c }).run token).1 = .ok r) :
    Completed c N (Supplies.ofOrders c orders) ((follow orders { config := c }).run token).2 where
  holding := (hbounded.holding c).run token
  finished := ((hbounded.holding c).rooted_run (h.rooted hbounded) hr).2

/-- A run of a generator after changes of its inputs. -/
abbrev Reruns (c : Config) (N : Nat) (given : Supplies) (ks : List Node)
    (g g' : Generator) : Prop :=
  Rerun (Generation.rules c N) (Node.Of (given.kinds c)) Root ks g.store g'.store

/-- The next run that ends with a result does what a change of the inputs asks for. -/
theorem Completed.exists_reruns {c : Config} {N : Nat} {given given' : Supplies} {g g' : Generator}
    (h : Completed c N given g) (h' : Holding .coarse c N given' g')
    (hchange : Refreshed g.store g'.store) {token : Option Token} {r : GenerationResult}
    (hr : (g'.run token).1 = .ok r) :
    ∃ ks, Reruns c N given' ks g (g'.run token).2 := by
  obtain ⟨hok, hstore⟩ := h'.run_completed hr
  have hbegin : Refreshed g.store (g'.store.beginPass token) :=
    ⟨hchange.memos, hchange.executed, hchange.revision, hchange.inputs⟩
  have hpresent (d : Node) (hd : Root d) : d.Of (given'.kinds c) := by
    rcases hd with rfl | rfl <;> trivial
  obtain ⟨ks, hks⟩ := h.holding.rest.rerun (rules_orderly_outlines c N) (rules_leveled c N)
    resultProgram_safe (fun d hd => resultProgram_demands hd) resultProgram_within h.finished hbegin
    (h'.rest.beginPass token) (rules_steady h'.kinds_hold c N) hpresent hok
  refine ⟨ks, ?_⟩
  unfold Reruns
  rw [hstore]
  exact ⟨hks.executed, hks.nodup, hks.within, hks.cause, hks.idle, hks.effect,
    fun d hd => (hks.finished d hd).of_memos rfl rfl⟩

end Generator
end SceneCodegen
