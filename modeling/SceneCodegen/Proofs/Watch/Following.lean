import SceneCodegen.Proofs.Generation.Fillers
import SceneCodegen.Proofs.Graph.OpenPasses
import SceneCodegen.Proofs.Watch.Taking

/-!
# Orders behind a session

What a session does to its generator is what some orders do: those that take in the sources it looks
at and the types it reads, and the runs of its passes. They supply the sources as they were looked
at last and the last types that could be read.
-/
namespace SceneCodegen
open Graph Generation Generator

namespace Generator

theorem sortAssets_filter (c : Config) (snapshots : List Snapshot) :
    sortAssets c (snapshots.filter fun x =>
      AssetFiles.isAsset c.manifestName c.sceneExtension x.path) = sortAssets c snapshots := by
  rw [sortAssets_eq, sortAssets_eq, List.filter_filter, List.filter_filter]
  congr 1 <;> refine List.filter_congr fun x _ => ?_
  · simp only [AssetFiles.isAsset]
    cases Snapshot.isManifest c.manifestName x.path <;> rfl
  · simp only [AssetFiles.isAsset]
    cases Snapshot.isManifest c.manifestName x.path <;>
      cases Snapshot.isScene c.sceneExtension x.path <;> rfl

/-- What is no asset by name is not taken in. -/
theorem updateAssets_filter (snapshots : List Snapshot) (removed : List String) (g : Generator) :
    g.updateAssets (snapshots.filter fun x =>
      AssetFiles.isAsset g.config.manifestName g.config.sceneExtension x.path) removed =
        g.updateAssets snapshots removed := by
  rw [updateAssets, updateAssets, sortAssets_filter]

theorem config_apply (order : Order) (g : Generator) : (order.apply g).config = g.config := by
  cases order <;> rfl

theorem config_follow (orders : List Order) (g : Generator) :
    (follow orders g).config = g.config := by
  induction orders generalizing g with
  | nil => rfl
  | cons order orders ih => exact (ih (order.apply g)).trans (config_apply order g)

theorem follow_append (orders more : List Order) (g : Generator) :
    follow (orders ++ more) g = follow more (follow orders g) := List.foldl_append

/-- A run that nobody cancels comes to what a run outside of any pass comes to. -/
theorem Fitting.run_open {orders : List Order} (h : Fitting orders) (c : Config) {token : Token}
    (htoken : token.IsOpen) {result : GenerationResult}
    (hresult : ((follow orders { config := c }).run none).1 = .ok result) :
    ((follow orders { config := c }).run (some token)).1 = .ok result := by
  obtain ⟨n, hn⟩ := h.holding c
  have hheld := hn n (Nat.le_refl n)
  have hopen : (Store.beginPass (some token) (follow orders { config := c }).store).IsOpen := by
    intro t ht
    cases ht
    exact htoken
  obtain ⟨a, ha, hagree⟩ := hheld.rest.run_agrees (rules_orderly c n) (rules_leveled c n)
    resultProgram_safe resultProgram_alike
  obtain ⟨b, hb⟩ := (hheld.rest.beginPass (some token)).run_open (rules_orderly c n)
    (rules_leveled c n) resultProgram_safe hopen
  have hnone : ((follow orders { config := c }).run none).1 = .ok a := by
    rw [hheld.run_eq]
    exact ha
  obtain rfl : a = result := Except.ok.inj (hnone.symm.trans hresult)
  rw [hheld.run_eq]
  show ((resultProgram.run (Generation.rules c n) depth _).1) = _
  rw [hb, hagree (some token) b hb]

/-- Orders that supply the same in the end make runs come to the same. -/
theorem Fitting.same_run {orders orders' : List Order} (h : Fitting orders) (h' : Fitting orders')
    (c : Config) (hassets : (Supplies.ofOrders c orders).asset =
      (Supplies.ofOrders c orders').asset)
    (htypes : (Supplies.ofOrders c orders).type = (Supplies.ofOrders c orders').type) :
    ∃ r, ((follow orders { config := c }).run none).1 = .ok r ∧
      ((follow orders' { config := c }).run none).1 = .ok r := by
  obtain ⟨n, hn⟩ := h.holding c
  obtain ⟨n', hn'⟩ := h'.holding c
  exact (hn (max n n') (Nat.le_max_left n n')).same_result
    (hn' (max n n') (Nat.le_max_right n n')) hassets htypes

end Generator

theorem FileTree.at?_empty_ne (place : Place) (bytes : List UInt8) :
    ({} : FileTree).at? place ≠ some (.file bytes) := by
  unfold FileTree.at?
  split <;> nofun

namespace Workplace

def symbolsIn (libraries : Libraries) (path : Path) (t : FileTree) : Except Fault SymbolTable :=
  ({ libraries, files := t } : Workplace).loadSymbols path

/-- The types of the last symbol document that was read without a fault, of trees with the latest
first. -/
def lastSymbols (libraries : Libraries) (path : Path) : List FileTree → SymbolTable
  | [] => []
  | t :: looks =>
    match symbolsIn libraries path t with
    | .ok symbols => symbols
    | .error _ => lastSymbols libraries path looks

variable {libraries : Libraries} {path : Path} {t t' : FileTree} {looks : List FileTree}

theorem symbolsIn_congr (h : t.entry path = t'.entry path) :
    symbolsIn libraries path t = symbolsIn libraries path t' := by
  simp only [symbolsIn, loadSymbols, FileTree.isFile, FileTree.probe, FileTree.readText,
    FileTree.readBytes, h]

theorem symbolsIn_empty (libraries : Libraries) (path : Path) (symbols : SymbolTable) :
    symbolsIn libraries path {} ≠ .ok symbols := by
  intro h
  obtain ⟨bytes, hentry, -⟩ := exists_of_loadSymbols h
  obtain ⟨place, -, hat⟩ := FileTree.entry_eq_file_iff.mp hentry
  exact FileTree.at?_empty_ne place bytes hat

/-- A document that is as it was last makes no difference. -/
theorem lastSymbols_same (h : symbolsIn libraries path t =
    symbolsIn libraries path (looks.headD {})) :
    lastSymbols libraries path (t :: looks) = lastSymbols libraries path looks := by
  rw [lastSymbols, h]
  cases looks with
  | nil =>
    split
    · next symbols hload => exact absurd hload (symbolsIn_empty libraries path symbols)
    · rfl
  | cons t₀ looks =>
    rw [List.headD_cons]
    split
    · next symbols hload => rw [lastSymbols, hload]
    · rfl

/-- The last types are none at all, or those of a tree. -/
theorem lastSymbols_eq (libraries : Libraries) (path : Path) (looks : List FileTree) :
    lastSymbols libraries path looks = [] ∨
      ∃ t ∈ looks, symbolsIn libraries path t = .ok (lastSymbols libraries path looks) := by
  induction looks with
  | nil => exact .inl rfl
  | cons t looks ih =>
    rw [lastSymbols]
    split
    · next symbols hload => exact .inr ⟨t, List.mem_cons_self, hload⟩
    · exact ih.imp_right fun ⟨t, ht, hload⟩ => ⟨t, List.mem_cons_of_mem _ ht, hload⟩

theorem nodup_lastSymbols (libraries : Libraries) (path : Path) (looks : List FileTree) :
    (Table.keys (lastSymbols libraries path looks)).Nodup := by
  rcases lastSymbols_eq libraries path looks with hnone | ⟨t, -, hload⟩
  · rw [hnone]
    exact List.nodup_nil
  · exact (keyed_loadSymbols hload).nodup

end Workplace

namespace WatchSession
open Workplace

variable {c : Config} {orders : List Order} {s s' : WatchSession} {w w' : Workplace}
  {looks : List FileTree}

theorem sources_congr (hconfig : s'.generator.config = s.generator.config)
    (hplace : SamePlace w w') (t : FileTree) : s'.sources w' t = s.sources w t := by
  simp only [sources, assetsOf, hconfig, hplace.directory]

theorem SetUp.congr (h : s.SetUp) (hroot : s'.projectRoot = s.projectRoot)
    (hsymbols : s'.symbolsPath = s.symbolsPath)
    (hconfig : s'.generator.config = s.generator.config) : s'.SetUp where
  plain := hroot ▸ h.plain
  anchor := hroot ▸ h.anchor
  straight := hroot ▸ h.straight
  root := by rw [hconfig, hroot, h.root]
  symbols rest hrest := by
    rw [sourcePath, hroot, hsymbols]
    refine h.symbols rest ⟨?_, hrest.straight⟩
    rw [← hconfig, ← hroot]
    exact hrest.input

/-- Orders supply what a session has looked at last: the sources and the types. -/
structure Supplied (c : Config) (orders : List Order) (s : WatchSession) (w : Workplace)
    (looks : List FileTree) : Prop where
  assets : ∀ path, (Supplies.ofOrders c orders).asset path =
    lastUnder (s.sources w (looks.headD {})) path
  symbols : (Supplies.ofOrders c orders).symbols = lastSymbols w.libraries s.symbolsPath looks
  snapshots : ∀ a ∈ orders.flatMap Order.snapshots, ∃ t ∈ looks, a ∈ s.sources w t
  tables : ∀ table, .replaceSymbols table ∈ orders →
    ∃ t ∈ looks, symbolsIn w.libraries s.symbolsPath t = .ok table

/-- The generator of a session has followed such orders. -/
structure Follows (c : Config) (orders : List Order) (s : WatchSession) (w : Workplace)
    (looks : List FileTree) : Prop extends Supplied c orders s w looks where
  setUp : s.SetUp
  isOpen : s.isClosed = false
  config : s.generator.config = c
  generator : s.generator = follow orders { config := c }

theorem Supplied.run_iff {token : Option Token} :
    Supplied c (orders ++ [Order.run token]) s w looks ↔ Supplied c orders s w looks := by
  have hsupplies : Supplies.ofOrders c (orders ++ [Order.run token]) =
      Supplies.ofOrders c orders := by
    rw [Supplies.ofOrders, List.foldl_append]
    rfl
  have hsnapshots : (orders ++ [Order.run token]).flatMap Order.snapshots =
      orders.flatMap Order.snapshots := by simp [Order.snapshots]
  have htables (table : SymbolTable) : Order.replaceSymbols table ∈ orders ++ [Order.run token] ↔
      Order.replaceSymbols table ∈ orders := by simp
  constructor
  · rintro ⟨hassets, hsymbols, hsnap, htab⟩
    exact ⟨hsupplies ▸ hassets, hsupplies ▸ hsymbols, hsnapshots ▸ hsnap,
      fun table ht => htab table ((htables table).mpr ht)⟩
  · rintro ⟨hassets, hsymbols, hsnap, htab⟩
    exact ⟨hsupplies ▸ hassets, hsupplies ▸ hsymbols, hsnapshots ▸ hsnap,
      fun table ht => htab table ((htables table).mp ht)⟩

theorem Supplied.congr (h : Supplied c orders s w looks) (hsymbols : s'.symbolsPath = s.symbolsPath)
    (hconfig : s'.generator.config = s.generator.config) (hplace : SamePlace w w') :
    Supplied c orders s' w' looks := by
  have hsources (t : FileTree) : s'.sources w' t = s.sources w t := sources_congr hconfig hplace t
  refine ⟨fun path => ?_, ?_, fun a ha => ?_, ?_⟩
  · rw [hsources]
    exact h.assets path
  · rw [hsymbols, hplace.libraries]
    exact h.symbols
  · obtain ⟨t, ht, hat⟩ := h.snapshots a ha
    exact ⟨t, ht, by rwa [hsources]⟩
  · rw [hsymbols, hplace.libraries]
    exact h.tables

namespace Follows
variable (h : Follows c orders s w looks)
include h

theorem congr (hroot : s'.projectRoot = s.projectRoot) (hsymbols : s'.symbolsPath = s.symbolsPath)
    (hclosed : s'.isClosed = s.isClosed) (hgenerator : s'.generator = s.generator)
    (hplace : SamePlace w w') : Follows c orders s' w' looks := by
  have hconfig : s'.generator.config = s.generator.config := by rw [hgenerator]
  exact ⟨h.toSupplied.congr hsymbols hconfig hplace, h.setUp.congr hroot hsymbols hconfig,
    hclosed.trans h.isOpen, hconfig.trans h.config, hgenerator.trans h.generator⟩

/-- A run supplies nothing. -/
theorem ran (token : Option Token) : Follows c (orders ++ [Order.run token])
    { s with generator := (s.generator.run token).2 } w looks := by
  have hconfig : (s.generator.run token).2.config = s.generator.config :=
    config_apply (.run token) s.generator
  refine ⟨Supplied.run_iff.mpr (h.toSupplied.congr rfl hconfig (.refl w)),
    h.setUp.congr rfl rfl hconfig,
    h.isOpen, hconfig.trans h.config, ?_⟩
  rw [follow_append, ← h.generator]
  rfl

/-- A tree is looked at: its sources are taken in, and then its types if they are read again. -/
theorem looked {t : FileTree} {order : Order} {more : List Order}
    (hassets : ∀ path, ((Supplies.ofOrders c orders).after c order).asset path =
      lastUnder (s.sources w t) path)
    (horder : ((Supplies.ofOrders c orders).after c order).symbols =
      (Supplies.ofOrders c orders).symbols ∧ ∀ table, order ≠ .replaceSymbols table)
    (hsnapshots : ∀ a ∈ order.snapshots, a ∈ s.sources w t)
    (hmore : more = [] ∧ lastSymbols w.libraries s.symbolsPath (t :: looks) =
      lastSymbols w.libraries s.symbolsPath looks ∨
      ∃ table, symbolsIn w.libraries s.symbolsPath t = .ok table ∧ more = [.replaceSymbols table]) :
    Follows c (orders ++ order :: more)
      { s with generator := follow (order :: more) s.generator } w (t :: looks) := by
  have hconfig := config_follow (order :: more) s.generator
  have hsources (t : FileTree) :
      sources { s with generator := follow (order :: more) s.generator } w t = s.sources w t :=
    sources_congr hconfig (.refl w) t
  have hsupplies : Supplies.ofOrders c (orders ++ order :: more) =
      more.foldl (Supplies.after c) ((Supplies.ofOrders c orders).after c order) := by
    rw [Supplies.ofOrders, List.foldl_append]
    rfl
  refine ⟨⟨fun path => ?_, ?_, fun a ha => ?_, fun table htable => ?_⟩,
    h.setUp.congr rfl rfl hconfig, h.isOpen, hconfig.trans h.config,
    by rw [follow_append, ← h.generator]⟩
  · rw [hsupplies, hsources, List.headD_cons, ← hassets path]
    rcases hmore with ⟨rfl, -⟩ | ⟨table, -, rfl⟩ <;> rfl
  · rw [hsupplies]
    rcases hmore with ⟨rfl, hsame⟩ | ⟨table, hload, rfl⟩
    · exact horder.1.trans (h.symbols.trans hsame.symm)
    · show table = _
      rw [lastSymbols, hload]
  · have hmem : a ∈ orders.flatMap Order.snapshots ∨ a ∈ order.snapshots := by
      rcases hmore with ⟨rfl, -⟩ | ⟨table, -, rfl⟩
      · simpa using ha
      · simpa [Order.snapshots] using ha
    rcases hmem with hold | hnew
    · obtain ⟨t', ht', hat⟩ := h.snapshots a hold
      exact ⟨t', List.mem_cons_of_mem t ht', by rwa [hsources]⟩
    · exact ⟨t, List.mem_cons_self, by rw [hsources]; exact hsnapshots a hnew⟩
  · rcases List.mem_append.mp htable with hold | hnew
    · obtain ⟨t', ht', hload⟩ := h.tables table hold
      exact ⟨t', List.mem_cons_of_mem t ht', hload⟩
    · rcases List.mem_cons.mp hnew with hsame | hnew
      · exact absurd hsame.symm (horder.2 table)
      · rcases hmore with ⟨rfl, -⟩ | ⟨table', hload, rfl⟩
        · cases hnew
        · cases List.mem_singleton.mp hnew
          exact ⟨t, List.mem_cons_self, hload⟩

end Follows

/-- The orders by which the types of a tree are read again, if they are and can be. -/
def rereading (rereads : Bool) (libraries : Libraries) (path : Path) (t : FileTree) : List Order :=
  if rereads then
    match symbolsIn libraries path t with
    | .ok table => [.replaceSymbols table]
    | .error _ => []
  else []

theorem rereading_cases (rereads : Bool) {libraries : Libraries} {path : Path} {t : FileTree}
    (hsame : rereads = false →
      symbolsIn libraries path t = symbolsIn libraries path (looks.headD {})) :
    rereading rereads libraries path t = [] ∧
        lastSymbols libraries path (t :: looks) = lastSymbols libraries path looks ∨
      ∃ table, symbolsIn libraries path t = .ok table ∧
        rereading rereads libraries path t = [.replaceSymbols table] := by
  cases rereads with
  | false => exact .inl ⟨rfl, lastSymbols_same (hsame rfl)⟩
  | true =>
    cases hload : symbolsIn libraries path t with
    | ok table => exact .inr ⟨table, rfl, by rw [rereading, if_pos rfl, hload]⟩
    | error fault =>
      refine .inl ⟨by rw [rereading, if_pos rfl, hload], ?_⟩
      rw [lastSymbols, hload]

theorem loadIn_eq (s : WatchSession) (w : Workplace) : (s.loadIn w).2 =
    ({ s with generator := follow (.replaceAssets (s.sources w w.files) ::
      rereading true w.libraries s.symbolsPath w.files) s.generator }, w) := by
  have hload : symbolsIn w.libraries s.symbolsPath w.files = w.loadSymbols s.symbolsPath := rfl
  rw [loadIn, load, rereading, if_pos rfl, hload]
  cases w.loadSymbols s.symbolsPath <;> rfl

theorem reloadSymbols_eq (s : WatchSession) (w : Workplace) : (s.reloadSymbols w).2.1 =
      { s with
        generator := follow (rereading true w.libraries s.symbolsPath w.files) s.generator } := by
  have hload : symbolsIn w.libraries s.symbolsPath w.files = w.loadSymbols s.symbolsPath := rfl
  rw [reloadSymbols, rereading, if_pos rfl, hload]
  cases w.loadSymbols s.symbolsPath with
  | ok table => rfl
  | error fault =>
    cases fault with
    | symbols error =>
      dsimp only
      split <;> rfl
    | _ => rfl

theorem takeIn_eq {changes : List Change} {e : Effects}
    (hfold : changes.foldlM (s.addChange w) {} = .ok e) : (s.takeIn changes w).2.1 =
      { s with generator := follow (.updateAssets (s.assetsAmong e.snapshots) e.removed ::
        rereading e.reloadsSymbols w.libraries s.symbolsPath w.files) s.generator } := by
  have hfirst (more : List Order) :
      follow (.updateAssets (s.assetsAmong e.snapshots) e.removed :: more) s.generator =
        follow more (s.generator.updateAssets e.snapshots e.removed).2 := by
    rw [← updateAssets_filter]
    rfl
  rw [takeIn, hfold, hfirst]
  dsimp only
  cases hrereads : e.reloadsSymbols with
  | true =>
    rw [if_pos rfl, reloadSymbols_eq]
  | false => rfl

theorem cancel_generator (starts : Nat) (s : WatchSession) (w : Workplace) :
    (s.cancel starts w).2.1.generator = s.generator ∨
      ∃ token, (s.cancel starts w).2.1.generator = (s.generator.run token).2 := by
  unfold cancel
  split
  · next hrunning =>
    show (s.unwind starts w).1.generator = _ ∨ ∃ token, (s.unwind starts w).1.generator = _
    rcases unwind_cases starts w hrunning with ⟨token, r, hfinish, -⟩ | ⟨r, hfinish, -⟩ |
      ⟨result, -, hpublish⟩
    · rw [hfinish]
      exact .inr ⟨some token, rfl⟩
    · rw [hfinish]
      exact .inl rfl
    · obtain ⟨⟨r, hfinish⟩, -⟩ := publish_spec result s w
      rw [hpublish, hfinish]
      exact .inl rfl
  · exact .inl rfl

namespace Follows
variable (h : Follows c orders s w looks)
include h

theorem cancelled (starts : Nat) : ∃ orders',
    Follows c orders' (s.cancel starts w).2.1 (s.cancel starts w).2.2 looks := by
  obtain ⟨hpaths, hplace⟩ := cancel_same starts s w
  rcases cancel_generator starts s w with hsame | ⟨token, hran⟩
  · exact ⟨orders, h.congr hpaths.projectRoot hpaths.symbolsPath hpaths.isClosed hsame hplace⟩
  · exact ⟨_, (h.ran token).congr hpaths.projectRoot hpaths.symbolsPath hpaths.isClosed hran
      hplace⟩

theorem loaded (hsound : w.files.Sound) : ∃ orders',
    Follows c orders' (s.loadIn w).2.1 (s.loadIn w).2.2 (w.files :: looks) := by
  rw [loadIn_eq]
  refine ⟨_, h.looked (fun path => ?_) ⟨rfl, nofun⟩ (fun a ha => ha) (rereading_cases true nofun)⟩
  simp only [Supplies.after, Supplies.assets, ← h.config]
  split
  · rfl
  · next hasset => exact (h.setUp.lastUnder_of_not_asset hsound hasset).symm

theorem taken {changes : List Change} {e : Effects} (hsound : w.files.Sound)
    (hseen : (looks.headD {}).Sound) (hreports : s.Reports w (looks.headD {}) changes)
    (hfold : changes.foldlM (s.addChange w) {} = .ok e) : ∃ orders',
    Follows c orders' (s.takeIn changes w).2.1 (s.takeIn changes w).2.2 (w.files :: looks) := by
  have hsums := sums_of_foldlM hfold
  have hplace := (takeIn_takesIn changes s w).files.toSamePlace
  have hconfig := h.config
  subst hconfig
  have htaken := h.looked (t := w.files)
    (h.setUp.assets_after hsound hseen hsums hreports h.assets) ⟨rfl, nofun⟩
    (fun a ha => ?_) (rereading_cases e.reloadsSymbols fun hno => ?_)
  · refine ⟨_, htaken.congr ?_ ?_ ?_ ?_ hplace⟩ <;> rw [takeIn_eq hfold]
  · obtain ⟨ha, hasset⟩ := List.mem_filter.mp ha
    obtain ⟨d, hd, bytes, hin, rfl⟩ := (hsums.snapshots a).mp ha
    rw [path_snapshotOf] at hasset
    obtain ⟨rest, hsource, hpath⟩ := hreports.nothingElse d hd bytes hin hasset
    refine (h.setUp.mem_sources_iff hsound).mpr ⟨rest, bytes, hsource,
      h.setUp.at?_of_bringsIn hsource hpath hin, by rw [snapshotOf, hpath]⟩
  · refine symbolsIn_congr (by_contra fun hnew => ?_)
    obtain ⟨d, hd, hsymbols⟩ := hreports.symbols hnew
    have hrereads := reloadsSymbols_foldlM hfold
    rw [hno, Bool.false_or] at hrereads
    have hnone := List.any_eq_false.mp hrereads.symm d hd
    exact hnone hsymbols

end Follows

theorem Follows.submitted {step : Step} (h : Follows c orders (step s w).2.1 (step s w).2.2 looks) :
    Follows c orders (thenSubmit step s w).2.1 (thenSubmit step s w).2.2 looks := by
  obtain ⟨generation, pass, hsubmit⟩ := thenSubmit_spec step s w
  rw [hsubmit]
  exact h.congr rfl rfl rfl rfl (.refl _)

/-- The result that a pass has come to, before it has ended. -/
def outcome? (s : WatchSession) : Option (Except (Halt Node) GenerationResult) :=
  match s.pass with
  | some (.computed r) => some r
  | some (.writing result) => some (.ok result)
  | _ => none

/-- The orders behind a session end with the run that its result came from, if its pass has one and
has not yet ended. -/
structure Driven (c : Config) (orders : List Order) (s : WatchSession) (w : Workplace)
    (looks : List FileTree) : Prop extends Follows c orders s w looks where
  computed : ∀ r, s.outcome? = some r → ∃ before token, token.IsOpen ∧
    orders = before ++ [Order.run (some token)] ∧
    r = ((follow before { config := c }).run (some token)).1

theorem outcome?_of_idle (h : s.isRunning = false) : s.outcome? = none := by
  unfold outcome?
  split
  · next r hpass => exact not_running_elim h hpass rfl
  · next result hpass => exact not_running_elim h hpass rfl
  · rfl

theorem not_writing_of_outcome? (h : s.outcome? = none) (result : GenerationResult) :
    s.pass ≠ some (.writing result) := fun hpass => by
  rw [outcome?, hpass] at h
  cases h

theorem Follows.driven (h : Follows c orders s w looks) (hnone : s.outcome? = none) :
    Driven c orders s w looks := ⟨h, by simp [hnone]⟩

theorem outcome?_thenSubmit {step : Step} (h : (step s w).2.1.isRunning = false) :
    (thenSubmit step s w).2.1.outcome? = none := by
  rcases andThen_cases step submit s w with ⟨-, hsubmit⟩ | ⟨-, hsame⟩
  · rw [thenSubmit, hsubmit, submit]
    dsimp only
    split
    · exact outcome?_of_idle h
    · rfl
  · rw [thenSubmit, hsame]
    exact outcome?_of_idle h

/-- A pass that is running comes to a result, which is kept until it ends. -/
theorem exists_outcome (h : s.isRunning = true) : ∃ r, s.compute.outcome? = some r := by
  rcases isRunning_cases h with hpass | ⟨result, hpass⟩ | ⟨halt, hpass⟩ | ⟨result, hpass⟩
  · rw [compute_of_waiting hpass]
    exact ⟨_, rfl⟩
  all_goals
    rw [compute_of_not_waiting (by simp [hpass]), outcome?, hpass]
    exact ⟨_, rfl⟩

theorem outcome?_commit (s : WatchSession) : s.commit.outcome? = s.outcome? := by
  rcases commit_cases s with ⟨result, hpass, hcommit⟩ | ⟨-, hcommit⟩
  · rw [hcommit, outcome?, outcome?, hpass]
  · rw [hcommit]

/-- A pass that has a result writes it once it is found not to be cancelled. -/
theorem commit_pass {result : GenerationResult} (h : s.outcome? = some (.ok result)) :
    s.commit.pass = some (.writing result) := by
  unfold outcome? at h
  split at h
  · next r hpass =>
    cases h
    rw [commit, hpass]
  · next result' hpass =>
    cases h
    rw [commit, hpass]
    exact hpass
  · cases h

namespace Driven
variable (h : Driven c orders s w looks)
include h

theorem edited (files : FileTree) : Driven c orders s { w with files } looks :=
  ⟨h.congr rfl rfl rfl rfl ⟨rfl, rfl, rfl⟩, h.computed⟩

theorem computes : ∃ orders', Driven c orders' s.compute w looks := by
  by_cases hwaiting : s.pass = some .waiting
  · refine ⟨orders ++ [Order.run (some { generation := s.generation })], ?_⟩
    rw [compute_of_waiting hwaiting]
    refine ⟨(h.ran _).congr rfl rfl rfl rfl (.refl w), fun r hr => ?_⟩
    cases hr
    exact ⟨orders, _, ⟨rfl, rfl⟩, rfl, by rw [← h.generator]⟩
  · rw [compute_of_not_waiting hwaiting]
    exact ⟨orders, h⟩

theorem commits : Driven c orders s.commit w looks := by
  have hpaths := commit_same s
  refine ⟨h.congr hpaths.projectRoot hpaths.symbolsPath hpaths.isClosed (generator_commit s)
    (.refl w), ?_⟩
  rw [outcome?_commit]
  exact h.computed

theorem completes : ∃ orders', Driven c orders' (s.complete w).1 (s.complete w).2 looks := by
  obtain ⟨orders', hcomputes⟩ := h.computes
  have h' := hcomputes.commits
  obtain ⟨hended, hfinish, hplace⟩ := complete_spec s w
  refine ⟨orders', Follows.driven ?_ (outcome?_of_idle hended)⟩
  rcases hfinish with hsame | ⟨r, hfinish⟩
  · rw [hsame]
    exact h'.congr rfl rfl rfl rfl hplace
  · rw [hfinish]
    exact h'.congr rfl rfl rfl rfl hplace

theorem starts (hidle : s.isRunning = false) (hsound : w.files.Sound) :
    ∃ orders', Driven c orders' (s.start w).2.1 (s.start w).2.2 (w.files :: looks) := by
  obtain ⟨orders', h'⟩ := h.loaded hsound
  have hloaded : (s.loadIn w).2.1.isRunning = false := hidle
  rw [start_eq]
  exact ⟨orders', h'.submitted.driven (outcome?_thenSubmit hloaded)⟩

/-- Changes that are taken in come after a look at the files as the cancelled pass left them. -/
theorem changes {changes : List Change} {starts : Nat} {s' : WatchSession} {w' : Workplace}
    {e : Effects} (hcancel : s.cancel starts w = (.ok (), s', w'))
    (hfold : changes.foldlM (s'.addChange w') {} = .ok e) (hsound : w'.files.Sound)
    (hseen : (looks.headD {}).Sound) (hreports : s'.Reports w' (looks.headD {}) changes) :
    ∃ orders', Driven c orders' (s.applyChanges starts changes w).2.1
      (s.applyChanges starts changes w).2.2 (w'.files :: looks) := by
  obtain ⟨orders₁, h₁⟩ := h.cancelled starts
  have hended := takeOver_ended starts changes s w
  rw [hcancel] at h₁
  obtain ⟨orders', h'⟩ := h₁.taken hsound hseen hreports hfold
  rw [applyChanges_eq]
  refine ⟨orders', Follows.driven (Follows.submitted ?_) (outcome?_thenSubmit hended)⟩
  rw [takeOver, andThen, hcancel]
  exact h'

/-- Changes that are not taken in leave what was looked at. -/
theorem keeps {changes : List Change} {starts : Nat}
    (hnone : ∀ s' w', s.cancel starts w = (.ok (), s', w') →
      ∀ e, changes.foldlM (s'.addChange w') {} ≠ .ok e) :
    ∃ orders', Driven c orders' (s.applyChanges starts changes w).2.1
      (s.applyChanges starts changes w).2.2 looks := by
  obtain ⟨orders', h'⟩ := h.cancelled starts
  have hended := takeOver_ended starts changes s w
  rw [applyChanges_eq]
  refine ⟨orders', Follows.driven (Follows.submitted ?_) (outcome?_thenSubmit hended)⟩
  rcases takeOver_cases starts changes s w with ⟨s', w', hcancel, htook⟩ | ⟨-, htook⟩
  · rw [hcancel] at h'
    cases hfold : changes.foldlM (s'.addChange w') {} with
    | ok e => exact absurd hfold (hnone s' w' hcancel e)
    | error fault =>
      rw [htook, takeIn, hfold]
      exact h'
  · rw [htook]
    exact h'

end Driven

/-- The trees that were looked at are sound, no two texts of sources have one digest, and the types
that were read are plain. -/
structure Tellable (s : WatchSession) (w : Workplace) (looks : List FileTree) : Prop where
  sound : ∀ t ∈ looks, t.Sound
  texts : ∀ t ∈ looks, ∀ a ∈ s.sources w t, ∀ t' ∈ looks, ∀ a' ∈ s.sources w t',
    Text.sha256 a.text = Text.sha256 a'.text → a.text = a'.text
  symbols : ∀ t ∈ looks, ∀ table, symbolsIn w.libraries s.symbolsPath t = .ok table →
    Scan.PlainTable table

theorem Tellable.sound_seen (h : Tellable s w looks) : (looks.headD {}).Sound := by
  cases looks with
  | nil => exact FileTree.sound_empty
  | cons t looks => exact h.sound t List.mem_cons_self

theorem Tellable.congr (h : Tellable s w looks) (hpaths : SamePaths s s')
    (hplace : SamePlace w w') : Tellable s' w' looks := by
  have hsources (t : FileTree) : s'.sources w' t = s.sources w t :=
    sources_congr hpaths.config hplace t
  refine ⟨h.sound, fun t ht a ha t' ht' a' ha' => ?_, ?_⟩
  · rw [hsources] at ha ha'
    exact h.texts t ht a ha t' ht' a' ha'
  · rw [hpaths.symbolsPath, hplace.libraries]
    exact h.symbols

theorem Tellable.subset {looks' : List FileTree} (h : Tellable s w looks) (hsub : looks' ⊆ looks) :
    Tellable s w looks' :=
  ⟨fun t ht => h.sound t (hsub ht),
    fun t ht a ha t' ht' a' ha' => h.texts t (hsub ht) a ha t' (hsub ht') a' ha',
    fun t ht => h.symbols t (hsub ht)⟩

theorem digest_of_mem_sources {t : FileTree} {a : Snapshot} (h : a ∈ s.sources w t) :
    a.digest = Text.sha256 a.text := by
  obtain ⟨⟨path, bytes⟩, -, rfl⟩ := List.mem_map.mp h
  rfl

theorem Tellable.fitting (h : Tellable s w looks)
    (hsnapshots : ∀ a ∈ orders.flatMap Order.snapshots, ∃ t ∈ looks, a ∈ s.sources w t)
    (htables : ∀ table, .replaceSymbols table ∈ orders →
      table = [] ∨ ∃ t ∈ looks, symbolsIn w.libraries s.symbolsPath t = .ok table) :
        Fitting orders where
  digest a ha := by
    obtain ⟨t, -, hat⟩ := hsnapshots a ha
    exact digest_of_mem_sources hat
  text a ha a' ha' hsame := by
    obtain ⟨t, ht, hat⟩ := hsnapshots a ha
    obtain ⟨t', ht', hat'⟩ := hsnapshots a' ha'
    exact h.texts t ht a hat t' ht' a' hat' hsame
  symbols table htable := by
    rcases htables table htable with rfl | ⟨t, ht, hload⟩
    · exact ⟨List.nodup_nil, nofun⟩
    · exact ⟨(keyed_loadSymbols hload).nodup, h.symbols t ht table hload⟩

theorem SetUp.not_mem_sources_empty (hs : s.SetUp) (w : Workplace) (a : Snapshot) :
    a ∉ s.sources w {} := fun ha => by
  obtain ⟨rest, bytes, -, hat, -⟩ := (hs.mem_sources_iff FileTree.sound_empty).mp ha
  exact FileTree.at?_empty_ne _ bytes hat

/-- Sources of which nothing is left to report were seen. -/
theorem SetUp.mem_sources_seen (hs : s.SetUp) {seen : FileTree} (hfiles : w.files.Sound)
    (hseen : seen.Sound) (hreports : s.Reports w seen []) {a : Snapshot}
    (ha : a ∈ s.sources w w.files) : a ∈ s.sources w seen := by
  obtain ⟨rest, bytes, hsource, hat, rfl⟩ := (hs.mem_sources_iff hfiles).mp ha
  refine (hs.mem_sources_iff hseen).mpr ⟨rest, bytes, hsource, by_contra fun hnew => ?_, rfl⟩
  obtain ⟨c, hc, -⟩ := hreports.there rest bytes hsource hat (.inl hnew)
  cases hc

theorem Supplies.fed_asset (c : Config) (snapshots : List Snapshot) (symbols : SymbolTable)
    (path : String) : (Supplies.fed c snapshots symbols).asset path =
      if AssetFiles.isAsset c.manifestName c.sceneExtension path then lastUnder snapshots path
      else none := rfl

theorem Supplied.fitting (h : Supplied c orders s w looks) (htell : Tellable s w looks) :
    Fitting orders :=
  htell.fitting h.snapshots fun table htable => .inr (h.tables table htable)

/-- What a run comes to that may be cancelled is reported by the pass itself. -/
theorem isOwn_of_run_ends {r : Except (Halt Node) GenerationResult} {halt : Halt Node}
    (h : (∃ result, r = .ok result) ∨ wasCancelled r = true) (hr : r = .error halt) :
    ∃ n, halt = .failed (.cancelled n) := by
  subst hr
  rcases h with ⟨result, hresult⟩ | hcancelled
  · cases hresult
  · unfold wasCancelled at hcancelled
    split at hcancelled
    · next n hsame =>
      cases hsame
      exact ⟨n, rfl⟩
    · cases hcancelled

/-- A pass that is not yet writing ends without a fault when it is cancelled, and has no result. -/
theorem Driven.cancel_pass (h : Driven c orders s w looks) (htell : Tellable s w looks)
    (starts : Nat) (hrunning : s.isRunning = true)
    (hnot : ∀ result, s.pass ≠ some (.writing result)) :
    (s.cancel starts w).1 = .ok () ∧
      (s.cancel starts w).2.1.pass = some (.finished (.ok none)) := by
  have hends (before : List Order) (hfitting : Fitting before) (token : Option Token) :
      (∃ result, ((follow before { config := c }).run token).1 = .ok result) ∨
        wasCancelled ((follow before { config := c }).run token).1 = true := by
    obtain ⟨n, hn⟩ := hfitting.holding c
    exact ((hn n (Nat.le_refl n)).run_ends token).imp_right And.right
  suffices hunwound : (s.unwind starts w).1.pass = some (.finished (.ok none)) by
    rw [cancel, if_pos hrunning]
    refine ⟨?_, hunwound⟩
    show (s.unwind starts w).1.result.map _ = .ok ()
    rw [result, hunwound]
    rfl
  rcases isRunning_cases hrunning with hpass | ⟨result, hpass⟩ | ⟨halt, hpass⟩ | ⟨result, hpass⟩
  · have hend := hends orders (h.toSupplied.fitting htell)
      (some { generation := s.generation, startsLeft := some starts })
    rw [← h.generator] at hend
    rw [unwind, hpass]
    dsimp only
    generalize hrun : s.run { generation := s.generation, startsLeft := some starts } = out
    obtain ⟨r, s'⟩ := out
    obtain rfl : _ = r := congrArg Prod.fst hrun
    dsimp only [run] at hrun ⊢
    split
    · rfl
    · next halt s'' hsame =>
      obtain ⟨n, rfl⟩ := isOwn_of_run_ends hend (congrArg Prod.fst hsame)
      rfl
  · rw [unwind, hpass]
    rfl
  · obtain ⟨before, token, -, rfl, hrun⟩ := h.computed (.error halt) (by rw [outcome?, hpass])
    have hsupplied := Supplied.run_iff.mp h.toSupplied
    obtain ⟨n, rfl⟩ := isOwn_of_run_ends (hends before (hsupplied.fitting htell) (some token))
      hrun.symm
    rw [unwind, hpass]
    rfl
  · exact absurd hpass (hnot result)

/-- A pass that is cancelled ends with a fault exactly if it was writing and met the
fault in that. -/
theorem Driven.cancel_fault_iff (h : Driven c orders s w looks) (htell : Tellable s w looks)
    {starts : Nat} {fault : Fault} : (s.cancel starts w).1 = .error fault ↔
      ∃ result f, s.pass = some (.writing result) ∧ fault = .file f ∧ f.isSystemFault = false ∧
        (OutputDirectory.sync result.fragments s.outputDirectory w.files).1 = .error f := by
  constructor
  · intro hfault
    by_cases hwriting : ∃ result, s.pass = some (.writing result)
    · obtain ⟨result, hpass⟩ := hwriting
      obtain ⟨f, hf⟩ := (cancel_writing hpass).mp hfault
      exact ⟨result, f, hpass, hf⟩
    · have hok : (s.cancel starts w).1 = .ok () := by
        by_cases hrunning : s.isRunning = true
        · exact (h.cancel_pass htell starts hrunning fun result hpass => hwriting ⟨result, hpass⟩).1
        · rw [cancel, if_neg hrunning]
      cases hok.symm.trans hfault
  · rintro ⟨result, f, hpass, hf⟩
    exact (cancel_writing hpass).mpr ⟨f, hf⟩

/-- A computed result of which nothing is left to report is that of a new generator. -/
theorem Driven.result_eq (h : Driven c orders s w looks) (htell : Tellable s w looks)
    (hsound : w.files.Sound) (hreports : s.Reports w (looks.headD {}) [])
    {r : Except (Halt Node) GenerationResult} (hr : s.outcome? = some r) :
    ∃ result, r = .ok result ∧
      ((fed c (s.sources w w.files) (lastSymbols w.libraries s.symbolsPath looks)).run none).1 =
        .ok result := by
  -- The run of the pass and the run of a new generator start from orders that supply the same.
  obtain ⟨before, token, htoken, rfl, rfl⟩ := h.computed r hr
  have hsupplied := Supplied.run_iff.mp h.toSupplied
  have hseen := htell.sound_seen
  have hbefore : Fitting before := hsupplied.fitting htell
  have hfed : Fitting
      (feeding (s.sources w w.files) (lastSymbols w.libraries s.symbolsPath looks)) := by
    refine htell.fitting (fun a ha => ?_) fun table htable => ?_
    · have ha : a ∈ s.sources w w.files := by simpa [feeding, Order.snapshots] using ha
      have haseen := h.setUp.mem_sources_seen hsound hseen hreports ha
      cases looks with
      | nil => exact absurd haseen (h.setUp.not_mem_sources_empty w a)
      | cons t looks => exact ⟨t, List.mem_cons_self, haseen⟩
    · have htable : table = lastSymbols w.libraries s.symbolsPath looks := by
        simpa [feeding] using htable
      rw [htable]
      exact lastSymbols_eq w.libraries s.symbolsPath looks
  have hassets : (Supplies.ofOrders c before).asset =
      (Supplies.fed c (s.sources w w.files)
        (lastSymbols w.libraries s.symbolsPath looks)).asset := by
    funext path
    rw [hsupplied.assets, Supplies.fed_asset, ← h.config]
    split
    · refine h.setUp.lastUnder_congr hseen hsound fun rest bytes hsource _ => ?_
      exact h.setUp.source_iff (sums_of_foldlM rfl) hreports hsource (List.forall_mem_nil _)
        (List.forall_mem_nil _) bytes
    · next hasset => exact h.setUp.lastUnder_of_not_asset hseen hasset
  have htypes : (Supplies.ofOrders c before).type =
      (Supplies.fed c (s.sources w w.files)
        (lastSymbols w.libraries s.symbolsPath looks)).type := by
    funext name
    simp only [Supplies.type, hsupplied.symbols]
    rfl
  obtain ⟨result, hresult, hfresh⟩ := hbefore.same_run hfed c hassets htypes
  exact ⟨result, hbefore.run_open c htoken hresult, hfresh⟩

end WatchSession
end SceneCodegen
