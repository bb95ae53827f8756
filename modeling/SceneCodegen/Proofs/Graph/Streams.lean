import SceneCodegen.Graph.Stream
import SceneCodegen.Proofs.Graph.Heeding
import SceneCodegen.Proofs.Graph.Likeness

/-!
# What streams come upon

Which nodes the programs of the stream operators may read, given which nodes their sources may, and
that the keys of the streams they make are of the kinds of those they are given. The programs are
safe where their sources are and handlers are cancelled at most.
-/
namespace SceneCodegen.Graph

deriving instance DecidableEq for Outcome

variable {K : Type} {V : K → Type} {α β ι κ τ : Type}

/-- Families whose values can all be taken out of the form of the graph. -/
def Family.Total {N : Type} {W : N → Type} (f : Family K V W) : Prop :=
  ∀ n v, ∃ w, f.decode n v = .ok w

theorem Family.heeds_get {N : Type} {W : N → Type} {f : Family K V W} (hf : f.Total) {n : N}
    {Q : (k : K) → V k → Prop} {E : Failure K → Prop} {P : W n → Prop}
    (hP : ∀ v w, Q (f.key n) v → f.decode n v = .ok w → P w) :
    (f.get n).Heeds (· = f.key n) Q E P := by
  refine (Program.heeds_get (T := (· = f.key n)) rfl).bind fun v hv => ?_
  obtain ⟨w, hw⟩ := hf n v
  rw [hw]
  exact .done (hP v w hv hw)

theorem Family.heeds_any {N : Type} {W : N → Type} {f : Family K V W} (hf : f.Total) (n : N)
    {Q : (k : K) → V k → Prop} {E : Failure K → Prop} :
    (f.get n).Heeds (· = f.key n) Q E Anything := heeds_get hf fun _ _ _ _ => trivial

theorem Family.get_alike {N : Type} {W : N → Type} {f : Family K V W} {L : Likeness K V}
    {n : N} {R : W n → W n → Prop} (h : ∀ v w, L.like (f.key n) v w →
      ∃ a b, f.decode n v = .ok a ∧ f.decode n w = .ok b ∧ R a b) :
    (f.get n).Alike L Eq R (f.get n) := by
  have hread : (Program.get (f.key n)).Alike L Eq (L.like (f.key n)) (Program.get (f.key n)) :=
    .read fun v w hvw => .done (show L.like _ v w from hvw)
  refine hread.bind fun v w hvw => ?_
  obtain ⟨a, b, ha, hb, hab⟩ := h v w hvw
  rw [ha, hb]
  exact .done hab

/-- The nodes that may be read for the keys of a stream, for an item and for its diagnostics. -/
structure Sources (K ι : Type) where
  keys : K → Prop
  item : ι → K → Prop
  diagnostics : K → Prop

namespace Sources

def ofInputs (f : InputNode ι → K) : Sources K ι where
  keys := (· = f .keys)
  item i := (· = f (.item i))
  diagnostics := NoNode

def map (f : MapNode ι → K) (S : Sources K ι) : Sources K ι where
  keys := S.keys
  item i := (· = f (.item i))
  diagnostics := (· = f .diagnostics)

def flat (f : FlatNode ι τ → K) (S : Sources K ι) : Sources K τ where
  keys := (· = f .keys)
  item key := (· = f (.item key))
  diagnostics := S.diagnostics

def join {ι₁ ι₂ : Type} (f : JoinNode ι₁ κ → K) (S : Sources K ι₁) (S' : Sources K ι₂) :
    Sources K ι₁ where
  keys := S.keys
  item i := (· = f (.item i))
  diagnostics d := S.diagnostics d ∨ S'.diagnostics d

/-- The nodes that may be read for all items with keys of a kind. -/
def items (S : Sources K ι) (I : ι → Prop) (d : K) : Prop := S.keys d ∨ ∃ i, I i ∧ S.item i d

/-- All nodes that may be read for a stream are of a set. -/
structure Within (P : K → Prop) (S : Sources K ι) : Prop where
  keys : ∀ d, S.keys d → P d
  item : ∀ i d, S.item i d → P d
  diagnostics : ∀ d, S.diagnostics d → P d

namespace Within
variable {P R : K → Prop} {S : Sources K ι} (h : S.Within P)
include h

theorem mono (hR : ∀ d, P d → R d) : S.Within R :=
  ⟨fun d hd => hR d (h.keys d hd), fun i d hd => hR d (h.item i d hd),
    fun d hd => hR d (h.diagnostics d hd)⟩

omit h in
theorem ofInputs {f : InputNode ι → K} (hf : ∀ n, P (f n)) : (Sources.ofInputs f).Within P :=
  ⟨by rintro _ rfl; exact hf _, by rintro i _ rfl; exact hf _, fun _ hd => hd.elim⟩

theorem map {f : MapNode ι → K} (hitem : ∀ i, P (f (.item i))) (hdiag : P (f .diagnostics)) :
    (S.map f).Within P :=
  ⟨h.keys, by rintro i _ rfl; exact hitem i, by rintro _ rfl; exact hdiag⟩

theorem flat {f : FlatNode ι τ → K} (hkeys : P (f .keys)) (hitem : ∀ key, P (f (.item key))) :
    (S.flat f).Within P :=
  ⟨by rintro _ rfl; exact hkeys, by rintro key _ rfl; exact hitem key, h.diagnostics⟩

theorem join {ι₂ : Type} {f : JoinNode ι κ → K} {S' : Sources K ι₂} (h' : S'.Within P)
    (hitem : ∀ i, P (f (.item i))) : (Sources.join f S S').Within P :=
  ⟨h.keys, by rintro i _ rfl; exact hitem i,
    fun d hd => hd.elim (h.diagnostics d) (h'.diagnostics d)⟩

theorem items {I : ι → Prop} {d : K} (hd : S.items I d) : P d := by
  rcases hd with hd | ⟨i, -, hd⟩
  · exact h.keys d hd
  · exact h.item i d hd

end Within

end Sources

/-- A stream with keys of a kind. -/
structure Stream.Heeds (S : Sources K ι) (Q : (k : K) → V k → Prop) (I : ι → Prop)
    (s : Stream K V ι α) : Prop where
  keys : s.keys.Heeds S.keys Q (Unfailing K) fun l => ∀ i ∈ l, I i
  item : ∀ i, (s.item i).Heeds (S.item i) Q (Unfailing K) Anything
  diagnostics : s.diagnostics.Heeds S.diagnostics Q (Unfailing K) Anything

variable {Q : (k : K) → V k → Prop} {I : ι → Prop}

theorem Stream.Heeds.items {S : Sources K ι} {s : Stream K V ι α} (h : s.Heeds S Q I) :
    s.items.Heeds (S.items I) Q (Unfailing K) Anything := by
  have hread (i : ι) (hi : I i) : (do return (← s.item i).map (i, ·) :
      Program K V (Option (ι × α))).Heeds (S.items I) Q (Unfailing K) Anything :=
    ((h.item i).widen fun d hd => .inr ⟨i, hi, hd⟩).bind fun _ _ => .done trivial
  refine (h.keys.widen fun d hd => .inl hd).bind fun keys hkeys => ?_
  exact (Program.Heeds.mapM fun i hi => hread i (hkeys i hi)).bind fun _ _ => .done trivial

theorem inputStream_heeds (f : Family K V (InputNode.Value ι α)) (hf : f.Total)
    (hkeys : ∀ v l, Q (f.key .keys) v → f.decode .keys v = .ok l → ∀ i ∈ l, I i) :
    f.inputStream.Heeds (.ofInputs f.key) Q I where
  keys := Family.heeds_get hf hkeys
  item i := Family.heeds_any hf (.item i)
  diagnostics := .done trivial

/-- The nodes that the program of a node of a mapped stream may read. -/
def mapReads (f : MapNode ι → K) (S : Sources K ι) (I : ι → Prop) (H : K → Prop) :
    MapNode ι → K → Prop
  | .outcome i => fun d => S.item i d ∨ H d
  | .item i => (· = f (.outcome i))
  | .diagnostics => fun d => S.diagnostics d ∨ S.keys d ∨ ∃ i, I i ∧ d = f (.outcome i)

theorem mapReads_within {f : MapNode ι → K} {S : Sources K ι} {I : ι → Prop} {H P : K → Prop}
    (hS : S.Within P) (hH : ∀ d, H d → P d) {n : MapNode ι}
    (hitem : ∀ i, n = .item i → P (f (.outcome i)))
    (hdiag : n = .diagnostics → ∀ i, I i → P (f (.outcome i))) {d : K}
    (h : mapReads f S I H n d) : P d := by
  cases n with
  | outcome i => exact h.elim (hS.item i d) (hH d)
  | item i =>
    obtain rfl : d = _ := h
    exact hitem i rfl
  | diagnostics =>
    rcases h with h | h | ⟨i, hi, rfl⟩
    · exact hS.diagnostics d h
    · exact hS.keys d h
    · exact hdiag rfl i hi

/-- The nodes of a mapped stream that belong to keys of a kind. -/
def MapNode.Of (I : ι → Prop) : MapNode ι → Prop
  | outcome i => I i
  | item i => I i
  | diagnostics => True

/-- Isolation leaves no failure but cancellations. -/
theorem isolate_heeds [Node K] {T : K → Prop} (label : String) {p : Program K V (Outcome β)}
    (h : p.Heeds T Q (fun e => ¬ IsCancellation e) Anything) :
    (isolate label p).Heeds T Q (Unfailing K) Anything := by
  refine h.catching ?_ ?_
  · rintro _ ⟨g, rfl⟩
    rfl
  · intro e he
    cases e with
    | cancelled g => exact absurd ⟨g, rfl⟩ he
    | _ => exact .done trivial

section
variable (self : Family K V (MapNode.Value ι β)) (hself : self.Total) {S : Sources K ι}
  {source : Stream K V ι α} (hsource : source.Heeds S Q I)
include hself hsource

theorem mapStream_heeds : (self.mapStream source).Heeds (S.map self.key) Q I where
  keys := hsource.keys
  item i := Family.heeds_any hself (.item i)
  diagnostics := Family.heeds_any hself .diagnostics

theorem mapProgram_heeds [Node K] [ItemKey ι] {H : K → Prop} {handler : α → Program K V (Outcome β)}
    (hhandler : ∀ a, (handler a).Heeds H Q (fun e => ¬ IsCancellation e) Anything)
    (n : MapNode ι) : (mapProgram self source handler n).Heeds (mapReads self.key S I H n) Q
      (Unfailing K) Anything := by
  cases n with
  | outcome i =>
    refine ((hsource.item i).widen fun d hd => .inl hd).bind fun x _ => ?_
    cases x with
    | none => exact .done trivial
    | some a => exact isolate_heeds _ ((hhandler a).widen fun d hd => .inr hd)
  | item i =>
    exact (Family.heeds_any hself (.outcome i)).bind fun _ _ => .done trivial
  | diagnostics =>
    refine (hsource.diagnostics.widen fun d hd => .inl hd).bind fun _ _ => ?_
    refine (hsource.keys.widen fun d hd => .inr (.inl hd)).bind fun keys hkeys => ?_
    have hown (i : ι) (hi : i ∈ keys) : (do return (← self.get (.outcome i)).diagnostics :
        Program K V (List Diagnostic)).Heeds (mapReads self.key S I H .diagnostics) Q (Unfailing K)
          Anything :=
      ((Family.heeds_any hself (.outcome i)).widen fun d hd => .inr (.inr ⟨i, hkeys i hi, hd⟩)).bind
        fun _ _ => .done trivial
    exact (Program.Heeds.mapM hown).bind fun _ _ => .done trivial

end

/-- The nodes that the program of a node of a flattened stream may read. -/
def flatReads (f : FlatNode ι (ι × κ) → K) (S : Sources K ι) (I : ι → Prop) :
    FlatNode ι (ι × κ) → K → Prop
  | .parts i => S.item i
  | .keys => fun d => S.keys d ∨ ∃ i, I i ∧ d = f (.parts i)
  | .item key => (· = f (.parts key.1))

theorem flatReads_within {f : FlatNode ι (ι × κ) → K} {S : Sources K ι} {I : ι → Prop}
    {P : K → Prop} (hS : S.Within P) {n : FlatNode ι (ι × κ)}
    (hkeys : n = .keys → ∀ i, I i → P (f (.parts i)))
    (hitem : ∀ key, n = .item key → P (f (.parts key.1))) {d : K} (h : flatReads f S I n d) :
    P d := by
  cases n with
  | parts i => exact hS.item i d h
  | keys =>
    rcases h with h | ⟨i, hi, rfl⟩
    · exact hS.keys d h
    · exact hkeys rfl i hi
  | item key =>
    obtain rfl : d = _ := h
    exact hitem key rfl

/-- The nodes of a flattened stream that belong to keys of a kind. -/
def FlatNode.Of (I : ι → Prop) : FlatNode ι (ι × κ) → Prop
  | parts i => I i
  | keys => True
  | item key => I key.1

/-- The keys of a flattened stream belong to keys of a kind. -/
def FlatNode.Keyed {ρ : Type} (I : ι → Prop) :
    (n : FlatNode ι (ι × κ)) → FlatNode.Value ι (ι × κ) ρ β n → Prop
  | .parts _ => Anything
  | .keys => fun keys => ∀ key ∈ keys, I key.1
  | .item _ => Anything

theorem exists_mapM {ε : Type} {f : α → Except ε β} (hf : ∀ a, ∃ b, f a = .ok b) (l : List α) :
    ∃ bs, l.mapM f = .ok bs ∧ ∀ b ∈ bs, ∃ a, f a = .ok b := by
  induction l with
  | nil => exact ⟨[], rfl, by simp⟩
  | cons a l ih =>
    obtain ⟨b, hb⟩ := hf a
    obtain ⟨bs, hbs, hmem⟩ := ih
    refine ⟨b :: bs, by rw [List.mapM_cons, hb, hbs]; rfl, fun x hx => ?_⟩
    rcases List.mem_cons.mp hx with rfl | hx
    · exact ⟨a, hb⟩
    · exact hmem x hx

theorem exists_find?_pairs [BEq κ] (wanted : κ) (parts : List (κ × β)) :
    ∃ b, (Flattening.pairs (K := K) (ι := ι)).find? wanted parts = .ok b := by
  induction parts with
  | nil => exact ⟨none, rfl⟩
  | cons p rest ih =>
    rcases p with ⟨k, b⟩
    simp only [Flattening.find?, Flattening.pairs, bind, Except.bind] at ih ⊢
    split
    · exact ⟨_, rfl⟩
    · exact ih

/-- Keys that can always be put in order. -/
class Sortable (τ : Type) [ItemKey τ] : Prop where
  exists_sorted : ∀ keys : List τ, ∃ l, ItemKey.sorted keys = .ok l ∧ ∀ key ∈ l, key ∈ keys

theorem exists_sortKeys [ItemKey τ] [Sortable τ] (keys : List τ) :
    ∃ l, sortKeys (K := K) keys = .ok l ∧ ∀ key ∈ l, key ∈ keys := by
  obtain ⟨l, hl, hmem⟩ := Sortable.exists_sorted keys
  exact ⟨l, by rw [sortKeys, hl]; rfl, hmem⟩

section
variable (self : Family K V (FlatNode.Value ι (ι × κ) (κ × β) β)) (hself : self.Total)
  {S : Sources K ι} {source : Stream K V ι α} (hsource : source.Heeds S Q I)
include hself hsource

theorem flatStream_heeds
    (hkeyed : ∀ v l, Q (self.key .keys) v → self.decode .keys v = .ok l → ∀ key ∈ l, I key.1) :
    (self.flatStream source).Heeds (S.flat self.key) Q fun key => I key.1 where
  keys := Family.heeds_get hself hkeyed
  item key := Family.heeds_any hself (.item key)
  diagnostics := hsource.diagnostics

theorem flatProgram_heeds [BEq κ] [ItemKey (ι × κ)] [Sortable (ι × κ)]
    {explode : α → Program K V (List (κ × β))}
    (hexplode : ∀ a, (explode a).Heeds NoNode Q (Unfailing K) Anything) (n : FlatNode ι (ι × κ)) :
    (flatProgram .pairs self source explode n).Heeds (flatReads self.key S I n) Q (Unfailing K)
      (n.Keyed I) := by
  cases n with
  | parts i =>
    refine (hsource.item i).bind fun x _ => ?_
    cases x with
    | none => exact .done trivial
    | some a => exact (hexplode a).widen fun d hd => hd.elim
  | keys =>
    refine (hsource.keys.widen fun d hd => .inl hd).bind fun keys hkeys => ?_
    refine (Program.Heeds.mapM (R := fun ks => ∀ key ∈ ks, I key.1) fun i hi => ?_).bind
      fun lists hlists => ?_
    · refine ((Family.heeds_any hself (.parts i)).widen
        fun d hd => .inr ⟨i, hkeys i hi, hd⟩).bind fun parts _ => ?_
      obtain ⟨ks, hks, hmem⟩ := exists_mapM (ε := Failure K)
        (f := fun p : κ × β => .ok (i, p.1)) (fun p => ⟨_, rfl⟩) parts
      refine Program.heeds_ofExcept ⟨ks, hks, fun key hkey => ?_⟩
      obtain ⟨p, hp⟩ := hmem key hkey
      cases hp
      exact hkeys i hi
    · obtain ⟨l, hl, hmem⟩ := exists_sortKeys (K := K) lists.flatten
      refine Program.heeds_ofExcept ⟨l, hl, fun key hkey => ?_⟩
      obtain ⟨ks, hks, hkey⟩ := List.mem_flatten.mp (hmem key hkey)
      exact hlists ks hks key hkey
  | item key =>
    refine (Family.heeds_any hself (.parts key.1)).bind fun parts _ => ?_
    obtain ⟨b, hb⟩ := exists_find?_pairs (K := K) (ι := ι) key.2 parts
    exact Program.heeds_ofExcept ⟨b, hb, trivial⟩

end

section
variable {ι₁ ι₂ : Type}

/-- The nodes that the program of a node of a joined stream may read. -/
def joinReads (f : JoinNode ι₁ κ → K) (S : Sources K ι₁) (S' : Sources K ι₂) (J : ι₂ → Prop) :
    JoinNode ι₁ κ → K → Prop
  | .index => S'.items J
  | .lookup _ => (· = f .index)
  | .item i => fun d => S.item i d ∨ ∃ key, d = f (.lookup key)

theorem joinReads_within {f : JoinNode ι₁ κ → K} {S : Sources K ι₁} {S' : Sources K ι₂}
    {J : ι₂ → Prop} {P : K → Prop} {n : JoinNode ι₁ κ} (hS : (∃ i, n = .item i) → S.Within P)
    (hS' : n = .index → S'.Within P) (hlookup : ∀ key, n = .lookup key → P (f .index))
    (hitem : ∀ i key, n = .item i → P (f (.lookup key))) {d : K} (h : joinReads f S S' J n d) :
    P d := by
  cases n with
  | index => exact (hS' rfl).items h
  | lookup key =>
    obtain rfl : d = _ := h
    exact hlookup key rfl
  | item i =>
    rcases h with h | ⟨key, rfl⟩
    · exact (hS ⟨i, rfl⟩).item i d h
    · exact hitem i key rfl

/-- The nodes of a joined stream that belong to keys of a kind. -/
def JoinNode.Of (I : ι → Prop) : JoinNode ι κ → Prop
  | index => True
  | lookup _ => True
  | item i => I i

variable (self : Family K V (JoinNode.Value ι₁ κ α β)) (hself : self.Total) {S : Sources K ι₁}
  {S' : Sources K ι₂} {I : ι₁ → Prop} {J : ι₂ → Prop} {left : Stream K V ι₁ α}
  {right : Stream K V ι₂ β} (hleft : left.Heeds S Q I) (hright : right.Heeds S' Q J)
include hself hleft hright

theorem joinStream_heeds : (self.joinStream left right).Heeds (.join self.key S S') Q I where
  keys := hleft.keys
  item i := Family.heeds_any hself (.item i)
  diagnostics := (hleft.diagnostics.widen fun _ hd => .inl hd).bind fun _ _ =>
    (hright.diagnostics.widen fun _ hd => .inr hd).bind fun _ _ => .done trivial

theorem joinProgram_heeds [BEq κ] [BEq β] {leftKeys : α → Program K V (List κ)}
    {rightKey : β → Program K V κ}
    (hleftKeys : ∀ a, (leftKeys a).Heeds NoNode Q (Unfailing K) Anything)
    (hrightKey : ∀ b, (rightKey b).Heeds NoNode Q (Unfailing K) Anything) (n : JoinNode ι₁ κ) :
    (joinProgram self left right leftKeys rightKey n).Heeds (joinReads self.key S S' J n) Q
      (Unfailing K) Anything := by
  cases n with
  | index =>
    have hkeyed (b : β) : (do return (← rightKey b, b) : Program K V (κ × β)).Heeds (S'.items J) Q
        (Unfailing K) Anything :=
      ((hrightKey b).widen fun d hd => hd.elim).bind fun _ _ => .done trivial
    exact hright.items.bind fun items _ =>
      (Program.Heeds.mapM fun x _ => hkeyed x.2).bind fun _ _ => .done trivial
  | lookup key =>
    exact (Family.heeds_any hself .index).bind fun _ _ => .done trivial
  | item i =>
    refine ((hleft.item i).widen fun d hd => .inl hd).bind fun x _ => ?_
    cases x with
    | none => exact .done trivial
    | some a =>
      have hget (key : κ) : (self.get (.lookup key)).Heeds (joinReads self.key S S' J (.item i)) Q
          (Unfailing K) Anything :=
        (Family.heeds_any hself (.lookup key)).widen fun d hd => .inr ⟨key, hd⟩
      refine ((hleftKeys a).widen fun d hd => hd.elim).bind fun keys _ => ?_
      exact (Program.Heeds.mapM (R := Anything) fun key _ => hget key).bind fun _ _ => .done trivial

end

end SceneCodegen.Graph
