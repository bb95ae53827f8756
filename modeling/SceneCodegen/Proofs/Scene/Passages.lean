import SceneCodegen.Proofs.Scene.Parsing

/-!
# Any lines as a scene

Whatever the lines of a file are, the parser sees passages: a header with the lines up to the next
one. Of a passage it uses the values of its header and the script that its body assigns, and what it
finds at a later header depends only on the passages before: the resource that was registered last
under an identifier, the node that stands last at a place. The connections it retains can so be read
off the passages. The path that is tested when a resource is registered is the last one its header
gives, while a connection cites the first; a header with one path makes no difference.
-/
namespace SceneCodegen.Scene

/-- A header with the lines of its body. -/
structure Passage where
  header : Header
  body : List String

def isHeader (line : String) : Bool := (Header.ofLine line).isSome

/-- The passages of lines; what stands before the first header belongs to none. -/
def passages : List String → List Passage
  | [] => []
  | line :: rest =>
    match Header.ofLine line with
    | none => passages rest
    | some h => ⟨h, rest.takeWhile fun l => !isHeader l⟩ :: passages rest

def latest? (test : Passage → Bool) (ps : List Passage) : Option Passage := ps.reverse.find? test

theorem latest?_concat (test : Passage → Bool) (ps : List Passage) (p : Passage) :
    latest? test (ps ++ [p]) = if test p then some p else latest? test ps := by
  rw [latest?, List.reverse_append, List.reverse_singleton, List.singleton_append, List.find?_cons]
  cases test p <;> rfl

theorem mem_of_latest? {test : Passage → Bool} {ps : List Passage} {p : Passage}
    (h : latest? test ps = some p) : p ∈ ps ∧ test p = true :=
  ⟨List.mem_reverse.mp (List.mem_of_find?_eq_some h), List.find?_some h⟩

namespace Passage

def kind (p : Passage) : TagKind := TagKind.ofHeader p.header.kind

def value? (key : String) (p : Passage) : Option String := Reading.lastValue? key p.header.pairs

/-- The path that is tested when the resource is registered. -/
def path (p : Passage) : String := (p.value? "path").getD ""

def citedPath (p : Passage) : String := (p.header.pairs.lookup "path").getD ""

/-- The identifier under which the passage registers a script. -/
def registers? (scriptExtension : String) (p : Passage) : Option String :=
  if p.kind = .extResource ∧ Text.hasSuffix scriptExtension p.path = true then
    (p.value? "id").filter (· ≠ "")
  else none

def place? (p : Passage) : Option String :=
  if p.kind = .node then
    ((p.value? "name").filter (· ≠ "")).map fun name => nodePath name (p.value? "parent")
  else none

/-- The script of the node: the last one that its body assigns, or else the first in its header. -/
def script? (p : Passage) : Option String :=
  (p.body.filterMap Reading.scriptOfLine?).getLast?.or (p.header.pairs.lookup scriptKey)

/-- The passage that registered the script at a place, of the passages so far. -/
def scriptAt? (scriptExtension : String) (before : List Passage) (place : String) :
    Option Passage := do
  let node ← latest? (·.place? == some place) before
  let id ← node.script?
  latest? (·.registers? scriptExtension == some id) before

/-- The passage that registered the script which a connection leads to, if it names a method. -/
def leadsTo? (scriptExtension : String) (before : List Passage) (p : Passage) : Option Passage :=
  match p.value? "method", p.value? "to" with
  | some method, some target =>
    if method = "" then none else scriptAt? scriptExtension before target
  | _, _ => none

/-- The connection as a tag, with the path of the script it leads to. -/
def tag (p x : Passage) : Tag :=
  (⟨.connection, (p.value? "method").getD "", p.header.pairs⟩ : Tag).withProperty scriptPathKey
    x.citedPath

/-- The tag that is retained for a passage after others. -/
def retained? (scriptExtension : String) (before : List Passage) (p : Passage) : Option Tag :=
  if p.kind = .connection then (p.leadsTo? scriptExtension before).map p.tag else none

/-- The scene is left at this passage: resources have ended, and none was a script. -/
def Leaves (scriptExtension : String) (before : List Passage) (p : Passage) : Prop :=
  before.getLast?.map kind = some .extResource ∧ p.kind ≠ .extResource ∧
    ∀ q ∈ before, q.registers? scriptExtension = none

instance (scriptExtension : String) (before : List Passage) (p : Passage) :
    Decidable (Leaves scriptExtension before p) :=
  inferInstanceAs (Decidable (_ ∧ _ ∧ _))

end Passage

/-- The tags of the connections that are retained of passages after others, unless the scene is
left. -/
def wiring? (scriptExtension : String) (before : List Passage) : List Passage → Option (List Tag)
  | [] => some []
  | p :: after =>
    if p.Leaves scriptExtension before then none
    else (wiring? scriptExtension (before ++ [p]) after).map
      ((p.retained? scriptExtension before).toList ++ ·)

namespace Reading

def addBody (body : List String) (r : Reading) : Reading :=
  body.foldl (fun r line => r.addBodyLine line) r

theorem addBodyLine_abandoned (line : String) (r : Reading) :
    (r.addBodyLine line).abandoned = r.abandoned := by
  unfold addBodyLine
  split <;> rfl

theorem addBodyLine_idle {r : Reading} (h : r.current ≠ .node) (line : String) :
    r.addBodyLine line = r := by
  unfold addBodyLine
  split
  · next hcurrent _ _ => exact absurd hcurrent h
  · rfl

theorem addBody_idle {r : Reading} (h : r.current ≠ .node) (body : List String) :
    r.addBody body = r := by
  induction body with
  | nil => rfl
  | cons line rest ih =>
    rw [addBody, List.foldl_cons, addBodyLine_idle h]
    exact ih

/-- The body of a node changes its tag only: it assigns the last script it names. -/
theorem addBody_node {r : Reading} {place : String} {tag : Tag} (hcurrent : r.current = .node)
    (hpending : r.pending = some (place, tag)) (body : List String) :
    ∃ tag' : Tag, r.addBody body = { r with pending := some (place, tag') } ∧
      tag'.kind = tag.kind ∧
      tag'.get? scriptKey = (body.filterMap scriptOfLine?).getLast?.or (tag.get? scriptKey) := by
  induction body generalizing r tag with
  | nil =>
    refine ⟨tag, ?_, rfl, rfl⟩
    rw [← hpending]
    rfl
  | cons line rest ih =>
    cases hscript : scriptOfLine? line with
    | none =>
      have hline : r.addBodyLine line = r := by simp [addBodyLine, hscript]
      obtain ⟨tag', hbody, hkind, hget⟩ := ih hcurrent hpending
      refine ⟨tag', ?_, hkind, by simpa [hscript] using hget⟩
      rw [addBody, List.foldl_cons, hline]
      exact hbody
    | some id =>
      have hline : r.addBodyLine line =
          { r with pending := some (place, tag.withProperty scriptKey id) } := by
        simp [addBodyLine, hcurrent, hpending, hscript]
      obtain ⟨tag', hbody, hkind, hget⟩ := ih
        (r := { r with pending := some (place, tag.withProperty scriptKey id) }) hcurrent rfl
      refine ⟨tag', ?_, hkind, ?_⟩
      · rw [addBody, List.foldl_cons, hline]
        exact hbody
      · rw [hget, get?_withProperty, List.filterMap_cons, hscript, List.getLast?_cons]
        cases (rest.filterMap scriptOfLine?).getLast? <;> rfl

/-- Takes in passages up to the end, or up to the one at which the scene is left. -/
def addPassages (scriptExtension : String) : List Passage → Reading → Reading
  | [], r => r.closeNode
  | p :: rest, r =>
    if r.showsNoScript p.kind then { r.closeNode with abandoned := true }
    else addPassages scriptExtension rest
      ((r.closeNode.addHeader scriptExtension p.header).addBody p.body)

/-- Lines are read passage by passage, after those that belong to none. -/
theorem addSaid_eq (scriptExtension : String) (lines : List String) {r : Reading}
    (hkept : r.abandoned = false) :
    r.addSaid scriptExtension lines =
      (r.addBody (lines.takeWhile fun l => !isHeader l)).addPassages scriptExtension
        (passages lines) := by
  induction lines generalizing r with
  | nil => rfl
  | cons line rest ih =>
    cases hline : Header.ofLine line with
    | none =>
      have hkept' : (r.addBodyLine line).abandoned = false := by
        rw [addBodyLine_abandoned, hkept]
      rw [addSaid, addLine, hline]
      simp only [hkept', Bool.false_eq_true, if_false, ih hkept', passages, hline,
        List.takeWhile_cons, isHeader, Option.isSome_none, Bool.not_false, if_true]
      rfl
    | some h =>
      have hnobody : (line :: rest).takeWhile (fun l => !isHeader l) = [] := by
        simp [isHeader, hline]
      rw [addSaid, addLine, hline, hnobody]
      simp only [passages, hline, addPassages, addBody, List.foldl_nil, Passage.kind,
        showsNoScript_closeNode]
      by_cases hleft : r.showsNoScript (TagKind.ofHeader h.kind) = true
      · simp [hleft]
      · have hkept' : (r.closeNode.addHeader scriptExtension h).abandoned = false := by
          rw [addHeader_abandoned, closeNode_abandoned, hkept]
        simp only [hleft, Bool.false_eq_true, if_false, hkept', ih hkept']
        rfl

/-- After some passages: under each identifier stands the script that was registered last, at each
place the node that came last, and these connections are retained. -/
structure Tells (scriptExtension : String) (before : List Passage) (connections : List Tag)
    (r : Reading) : Prop where
  resource : ∀ id, (r.resources.get? id).map (fun tag => (tag.get? "path").getD "") =
    (latest? (·.registers? scriptExtension == some id) before).map Passage.citedPath
  node : ∀ place, (r.closeNode.nodes.get? place).map (·.get? scriptKey) =
    (latest? (·.place? == some place) before).map Passage.script?
  connection : r.closeNode.connectionTags = connections
  previous : r.previous = before.getLast?.map Passage.kind

namespace Tells
variable {scriptExtension : String} {before : List Passage} {connections : List Tag} {r : Reading}

theorem resources_isEmpty (h : Tells scriptExtension before connections r) :
    r.resources.isEmpty = true ↔ ∀ p ∈ before, p.registers? scriptExtension = none := by
  constructor
  · intro hempty p hp
    by_contra hregisters
    obtain ⟨id, hid⟩ := Option.ne_none_iff_exists'.mp hregisters
    have hfind := h.resource id
    rw [List.isEmpty_iff.mp hempty] at hfind
    have hnone := Option.map_eq_none_iff.mp hfind.symm
    simpa [hid] using List.find?_eq_none.mp hnone p (List.mem_reverse.mpr hp)
  · intro hnone
    cases hr : r.resources with
    | nil => rfl
    | cons entry rest =>
      have hfind := h.resource entry.1
      have hget : r.resources.get? entry.1 = some entry.2 := by simp [hr, Table.get?]
      rw [hget] at hfind
      obtain ⟨p, hp, -⟩ := Option.map_eq_some_iff.mp hfind.symm
      obtain ⟨hmem, hregisters⟩ := mem_of_latest? hp
      simp [hnone p hmem] at hregisters

/-- The scene is left where the reading shows that it has no script. -/
theorem showsNoScript_iff (h : Tells scriptExtension before connections r) (p : Passage) :
    r.showsNoScript p.kind = true ↔ p.Leaves scriptExtension before := by
  simp only [showsNoScript, Bool.and_eq_true, beq_iff_eq, bne_iff_ne, h.resources_isEmpty,
    h.previous, Passage.Leaves, and_assoc]

/-- The script at a place is found as the passages have it. -/
theorem scriptOf? (h : Tells scriptExtension before connections r) (place : String) :
    (r.closeNode.scriptOf? place).map (fun tag => (tag.get? "path").getD "") =
      (Passage.scriptAt? scriptExtension before place).map Passage.citedPath := by
  have hnode := h.node place
  unfold Reading.scriptOf? Passage.scriptAt?
  cases hget : r.closeNode.nodes.get? place with
  | none =>
    rw [hget] at hnode
    simp [Option.map_eq_none_iff.mp hnode.symm]
  | some tag =>
    rw [hget] at hnode
    obtain ⟨p, hp, hscript⟩ := Option.map_eq_some_iff.mp hnode.symm
    cases hid : p.script? with
    | none => simp [hp, hid, ← hscript]
    | some id => simpa [hp, hid, ← hscript] using h.resource id

end Tells

section
variable {scriptExtension : String} {p : Passage}

theorem addHeader_resource (hkind : p.kind = .extResource) (r : Reading) :
    r.addHeader scriptExtension p.header =
      addResource scriptExtension p.header.pairs
        { r with previous := some .extResource, current := .extResource } := by
  unfold Passage.kind at hkind
  simp only [addHeader, hkind]

theorem addHeader_opening (hkind : p.kind = .node) (r : Reading) :
    r.addHeader scriptExtension p.header =
      openNode p.header.pairs { r with previous := some .node, current := .node } := by
  unfold Passage.kind at hkind
  simp only [addHeader, hkind]

theorem addHeader_connection (hkind : p.kind = .connection) (r : Reading) :
    r.addHeader scriptExtension p.header =
      addConnection p.header.pairs
        { r with previous := some .connection, current := .connection } := by
  unfold Passage.kind at hkind
  simp only [addHeader, hkind]

theorem addHeader_other (hkind : p.kind = .other) (r : Reading) :
    r.addHeader scriptExtension p.header =
      { r with previous := some .other, current := .other } := by
  unfold Passage.kind at hkind
  simp only [addHeader, hkind]

/-- A resource is registered as its passage says. -/
theorem addResource_passage (hkind : p.kind = .extResource) (r : Reading) :
    r.addResource scriptExtension p.header.pairs =
      (p.registers? scriptExtension).elim r fun id =>
        { r with
          resources := r.resources.set id ⟨.extResource, id, p.header.pairs⟩
          tags := r.tags ++ [⟨.extResource, id, p.header.pairs⟩] } := by
  simp only [addResource, Passage.registers?, hkind, Passage.path, Passage.value?, true_and]
  cases lastValue? "id" p.header.pairs with
  | none => simp
  | some id =>
    by_cases hsuffix : Text.hasSuffix scriptExtension
        ((lastValue? "path" p.header.pairs).getD "") = true <;>
      by_cases hid : id = "" <;> simp [hsuffix, hid, Option.filter]

/-- A node is opened where its passage places it. -/
theorem openNode_passage (hkind : p.kind = .node) (r : Reading) :
    ∃ name, r.openNode p.header.pairs =
      p.place?.elim { r with current := .other } fun place =>
        { r with pending := some (place, ⟨.node, name, p.header.pairs⟩) } := by
  simp only [openNode, Passage.place?, hkind, Passage.value?, if_true]
  cases lastValue? "name" p.header.pairs with
  | none => exact ⟨"", by simp⟩
  | some name =>
    by_cases hname : name = ""
    · exact ⟨"", by simp [hname, Option.filter]⟩
    · exact ⟨_, by simp [hname, Option.filter]; rfl⟩

end

namespace Tells
variable {scriptExtension : String} {before : List Passage} {connections : List Tag} {r : Reading}
  {p : Passage}

/-- A passage that registers and places nothing leaves what is found as it was. -/
theorem step_idle (h : Tells scriptExtension before connections r)
    (hresource : p.registers? scriptExtension = none) (hplace : p.place? = none)
    (current : TagKind) :
    Tells scriptExtension (before ++ [p]) connections
      { r.closeNode with previous := some p.kind, current := current } := by
  refine ⟨fun id => ?_, fun place => ?_, ?_, by simp⟩
  · rw [latest?_concat, hresource]
    simpa using h.resource id
  · rw [closeNode_of_pending (by simp), latest?_concat, hplace]
    exact h.node place
  · rw [closeNode_of_pending (by simp)]
    exact h.connection

theorem step_resource (h : Tells scriptExtension before connections r)
    (hkind : p.kind = .extResource) :
    Tells scriptExtension (before ++ [p]) connections
      ((r.closeNode.addHeader scriptExtension p.header).addBody p.body) := by
  have hplace : p.place? = none := by simp [Passage.place?, hkind]
  rw [addHeader_resource hkind, addResource_passage hkind]
  cases hregisters : p.registers? scriptExtension with
  | none =>
    rw [Option.elim_none, addBody_idle (by simp), ← hkind]
    exact h.step_idle hregisters hplace _
  | some id =>
    rw [Option.elim_some, addBody_idle (by simp)]
    refine ⟨fun id' => ?_, fun place => ?_, ?_, by simp [hkind]⟩
    · rw [latest?_concat, hregisters]
      by_cases hid : id = id'
      · subst hid
        simp [Table.get?_set_self, Tag.get?, Passage.citedPath]
      · simpa [Table.get?_set_of_ne hid, hid] using h.resource id'
    · rw [closeNode_of_pending (by simp), latest?_concat, hplace]
      exact h.node place
    · rw [closeNode_of_pending (by simp), ← h.connection]
      simp [connectionTags]

theorem step_node (h : Tells scriptExtension before connections r) (hkind : p.kind = .node) :
    Tells scriptExtension (before ++ [p]) connections
      ((r.closeNode.addHeader scriptExtension p.header).addBody p.body) := by
  have hresource : p.registers? scriptExtension = none := by simp [Passage.registers?, hkind]
  obtain ⟨name, hopen⟩ := openNode_passage hkind
    { r.closeNode with previous := some .node, current := .node }
  rw [addHeader_opening hkind, hopen]
  cases hplace : p.place? with
  | none =>
    rw [Option.elim_none, addBody_idle (by simp), ← hkind]
    exact h.step_idle hresource hplace _
  | some place =>
    rw [Option.elim_some]
    obtain ⟨tag, hbody, htag, hscript⟩ := addBody_node (r := { r.closeNode with
      previous := some .node, current := .node,
      pending := some (place, ⟨.node, name, p.header.pairs⟩) }) rfl rfl p.body
    rw [hbody]
    refine ⟨fun id => ?_, fun place' => ?_, ?_, by simp [hkind]⟩
    · rw [latest?_concat, hresource]
      simpa using h.resource id
    · rw [closeNode_of_pending_some rfl, latest?_concat, hplace]
      by_cases hsame : place = place'
      · subst hsame
        simpa [Table.get?_set_self, Passage.script?, Tag.get?] using hscript
      · simpa [Table.get?_set_of_ne hsame, hsame] using h.node place'
    · rw [closeNode_of_pending_some rfl, ← h.connection]
      simp [connectionTags, htag]

/-- A connection is retained as its passage says. -/
theorem addConnection_passage (h : Tells scriptExtension before connections r)
    (hkind : p.kind = .connection) :
    ({ r.closeNode with previous := some .connection, current := .connection } :
      Reading).addConnection p.header.pairs =
      { r.closeNode with
        previous := some .connection
        current := .connection
        tags := r.closeNode.tags ++ (p.retained? scriptExtension before).toList } := by
  simp only [addConnection, Passage.retained?, hkind, if_true, Passage.leadsTo?, Passage.value?]
  cases hmethod : lastValue? "method" p.header.pairs with
  | none => simp
  | some method =>
    cases htarget : lastValue? "to" p.header.pairs with
    | none => simp
    | some target =>
      have hscript := h.scriptOf? target
      change ((Reading.scriptOf? target { r.closeNode with
        previous := some .connection, current := .connection }).map _) = _ at hscript
      by_cases hempty : method = ""
      · simp [hempty]
      · simp only [beq_iff_eq, hempty, if_false]
        cases hfound : Reading.scriptOf? target { r.closeNode with
            previous := some .connection, current := .connection } with
        | none =>
          rw [hfound] at hscript
          simp [Option.map_eq_none_iff.mp hscript.symm]
        | some tag =>
          rw [hfound] at hscript
          obtain ⟨x, hx, hcited⟩ := Option.map_eq_some_iff.mp hscript.symm
          simp [hx, Passage.tag, Passage.value?, hmethod, hcited]

theorem step_connection (h : Tells scriptExtension before connections r)
    (hkind : p.kind = .connection) :
    Tells scriptExtension (before ++ [p])
      (connections ++ (p.retained? scriptExtension before).toList)
      ((r.closeNode.addHeader scriptExtension p.header).addBody p.body) := by
  have hidle := h.step_idle (p := p) (by simp [Passage.registers?, hkind])
    (by simp [Passage.place?, hkind]) .connection
  have hretained : (p.retained? scriptExtension before).toList.filter (·.kind == .connection) =
      (p.retained? scriptExtension before).toList := by
    rw [List.filter_eq_self]
    intro tag htag
    simp only [Passage.retained?, hkind, if_true, Option.mem_toList, Option.map_eq_some_iff] at htag
    obtain ⟨x, -, rfl⟩ := htag
    rfl
  rw [addHeader_connection hkind, h.addConnection_passage hkind, addBody_idle (by simp)]
  rw [hkind] at hidle
  refine ⟨hidle.resource, ?_, ?_, hidle.previous⟩
  · have hnode := hidle.node
    rw [closeNode_of_pending (by simp)] at hnode
    rw [closeNode_of_pending (by simp)]
    exact hnode
  · rw [closeNode_of_pending (by simp), ← h.connection]
    simp [connectionTags, hretained]

theorem step_other (h : Tells scriptExtension before connections r) (hkind : p.kind = .other) :
    Tells scriptExtension (before ++ [p]) connections
      ((r.closeNode.addHeader scriptExtension p.header).addBody p.body) := by
  rw [addHeader_other hkind, addBody_idle (by simp), ← hkind]
  exact h.step_idle (by simp [Passage.registers?, hkind]) (by simp [Passage.place?, hkind]) _

/-- What a passage adds to what is told, whatever its kind. -/
theorem step (h : Tells scriptExtension before connections r) (p : Passage) :
    Tells scriptExtension (before ++ [p])
      (connections ++ (p.retained? scriptExtension before).toList)
      ((r.closeNode.addHeader scriptExtension p.header).addBody p.body) := by
  have hnone (hne : p.kind ≠ .connection) :
      connections ++ (p.retained? scriptExtension before).toList = connections := by
    simp [Passage.retained?, hne]
  cases hkind : p.kind with
  | extResource =>
    rw [hnone (by simp [hkind])]
    exact h.step_resource hkind
  | node =>
    rw [hnone (by simp [hkind])]
    exact h.step_node hkind
  | connection => exact h.step_connection hkind
  | other =>
    rw [hnone (by simp [hkind])]
    exact h.step_other hkind

end Tells

theorem addBody_abandoned (body : List String) (r : Reading) :
    (r.addBody body).abandoned = r.abandoned := by
  induction body generalizing r with
  | nil => rfl
  | cons line rest ih => exact (ih _).trans (addBodyLine_abandoned line r)

/-- Passages are read to the connections they retain, or up to where the scene is left. -/
theorem addPassages_retains {scriptExtension : String} {before : List Passage}
    {connections : List Tag} {r : Reading} (h : Tells scriptExtension before connections r)
    (hkept : r.abandoned = false) (after : List Passage) :
    (r.addPassages scriptExtension after).abandoned =
      (wiring? scriptExtension before after).isNone ∧
      ∀ tags, wiring? scriptExtension before after = some tags →
        (r.addPassages scriptExtension after).connectionTags = connections ++ tags := by
  induction after generalizing before connections r with
  | nil =>
    refine ⟨by simp [addPassages, wiring?, hkept], fun tags htags => ?_⟩
    cases htags
    rw [List.append_nil]
    exact h.connection
  | cons p rest ih =>
    rw [addPassages, wiring?]
    by_cases hleft : r.showsNoScript p.kind = true
    · simp [hleft, (h.showsNoScript_iff p).mp hleft]
    · have hstays : ¬ p.Leaves scriptExtension before := fun hl =>
        hleft ((h.showsNoScript_iff p).mpr hl)
      have hkept' : ((r.closeNode.addHeader scriptExtension p.header).addBody p.body).abandoned =
          false := by
        rw [addBody_abandoned, addHeader_abandoned, closeNode_abandoned, hkept]
      obtain ⟨hleaves, htags⟩ := ih (h.step p) hkept'
      rw [if_neg hleft, if_neg hstays]
      refine ⟨by rw [hleaves, Option.isNone_map], fun tags hsome => ?_⟩
      obtain ⟨tags', htags', rfl⟩ := Option.map_eq_some_iff.mp hsome
      rw [htags tags' htags', List.append_assoc]

end Reading

/-- What lines are read to depends on their passages only. -/
theorem ofLines_eq (scriptExtension : String) (lines : List String) :
    Reading.ofLines scriptExtension lines =
      ({} : Reading).addPassages scriptExtension (passages (said lines)) := by
  rw [Reading.ofLines, Reading.addLines_eq, Reading.addSaid_eq scriptExtension _ rfl,
    Reading.addBody_idle (by simp)]

/-- Of any lines, the connections are retained that the passages give. -/
theorem connectionTags_parse (scriptExtension path : String) (lines : List String) :
    (parse scriptExtension path lines).map Asset.connectionTags =
      (wiring? scriptExtension [] (passages (said lines))).filter (· ≠ []) := by
  have hstart : Reading.Tells scriptExtension [] [] ({} : Reading) :=
    ⟨fun _ => rfl, fun _ => rfl, rfl, rfl⟩
  obtain ⟨hleft, htags⟩ := Reading.addPassages_retains hstart rfl (passages (said lines))
  rw [parse, ofLines_eq]
  cases hwiring : wiring? scriptExtension [] (passages (said lines)) with
  | none =>
    rw [hwiring] at hleft
    simp [Reading.asset?, hleft]
  | some tags =>
    rw [hwiring] at hleft
    have hsame := htags tags hwiring
    rw [List.nil_append] at hsame
    rw [Reading.asset?_of_kept hleft, hsame]
    by_cases hnil : tags = []
    · simp [hnil, Option.filter]
    · simp only [hnil, if_false, Option.map_some, Option.filter_some, ne_eq, not_false_eq_true,
        decide_true, if_true]
      exact congrArg some hsame

/-- The path of a scene is only written into its asset. -/
theorem Reading.asset?_eq_some {r : Reading} {path : String} {asset : Asset}
    (h : r.asset? path = some asset) (path' : String) :
    r.asset? path' = some ⟨path', asset.tags⟩ := by
  unfold asset? at h
  split at h
  · cases h
  · rename_i hkept
    obtain rfl := Option.some.inj h
    exact if_neg hkept

theorem path_of_parse {scriptExtension path : String} {lines : List String} {asset : Asset}
    (h : parse scriptExtension path lines = some asset) : asset.path = path := by
  have hkept := Reading.asset?_eq_some h path
  rw [parse] at h
  exact congrArg Asset.path (Option.some.inj (h.symm.trans hkept))

/-- A scene of one node, whose script is the resource that the header describes. -/
def menu (resource : String) : List String :=
  [resource, "[node name=\"Menu\"]", "script = ExtResource(\"1\")",
    "[connection to=\".\" method=\"OnPressed\"]"]

def menuScript : ResourceId := ⟨"1", by decide, by simp⟩

/-- The header of the resource, the node with its script, and the connection are written as any. -/
theorem menu_eq (resource : String) :
    menu resource = [resource, headerLine "node" [.quoted "name" "Menu"], scriptLine menuScript,
      headerLine "connection" [.quoted "to" ".", .quoted "method" "OnPressed"]] := by
  rfl

theorem trim_menuScript : Text.trim (scriptLine menuScript) = scriptLine menuScript := by
  rw [← String.toList_inj, trim_scriptLine]
  simp [scriptLine, reference, referenceOpening]

theorem ofLine_menuScript : Header.ofLine (scriptLine menuScript) = none := by
  have hline : (scriptLine menuScript).toList =
      's' :: ['c', 'r', 'i', 'p', 't', ' ', '='] ++ ' ' :: reference menuScript := by
    rw [← trim_menuScript, trim_scriptLine]
    simp [toList_scriptKey]
  exact Header.ofLine_eq_none hline (by decide) (by decide)

def menuNode : Passage := ⟨⟨"node", [("name", "Menu")]⟩, [scriptLine menuScript]⟩

def menuWire : Passage := ⟨⟨"connection", [("to", "."), ("method", "OnPressed")]⟩, []⟩

theorem passages_menu (attributes : List Attribute) :
    passages (said (menu (headerLine "ext_resource" attributes))) =
      [⟨⟨"ext_resource", attributes.map Attribute.pair⟩, []⟩, menuNode, menuWire] := by
  have hresource := Header.ofLine_headerLine isKind_extResource attributes
  have hnode := Header.ofLine_headerLine isKind_node [.quoted "name" "Menu"]
  have hwire := Header.ofLine_headerLine isKind_connection
    [.quoted "to" ".", .quoted "method" "OnPressed"]
  have hscript : Reading.isIgnored (scriptLine menuScript) = false := by
    rw [← trim_menuScript, isIgnored_scriptLine]
  simp [menu_eq, said, passages, isHeader, trim_headerLine, trim_menuScript, isIgnored_headerLine,
    hscript, hresource, hnode, hwire, ofLine_menuScript, menuNode, menuWire]

/-- The connection of such a scene cites the first path of the resource, whose last path ends as
scripts do. -/
theorem connectionTags_menu (attributes : List Attribute) {path : String}
    (hpath : Reading.lastValue? "path" (attributes.map Attribute.pair) = some path)
    (hsuffix : Text.hasSuffix ".cs" path = true)
    (hid : Reading.lastValue? "id" (attributes.map Attribute.pair) = some "1")
    (scenePath : String) :
    (parse ".cs" scenePath (menu (headerLine "ext_resource" attributes))).map
        Asset.connectionTags =
      some [⟨.connection, "OnPressed", [("to", "."), ("method", "OnPressed"),
        (scriptPathKey, ((attributes.map Attribute.pair).lookup "path").getD "")]⟩] := by
  let script : Passage := ⟨⟨"ext_resource", attributes.map Attribute.pair⟩, []⟩
  have hregisters : script.registers? ".cs" = some "1" := by
    have hvalue : script.path = path := by
      rw [Passage.path, Passage.value?, hpath, Option.getD_some]
    rw [Passage.registers?, if_pos ⟨rfl, by rwa [hvalue]⟩, Passage.value?, hid]
    rfl
  have hscript : menuNode.script? = some "1" := by
    have hline : Reading.scriptOfLine? (scriptLine menuScript) = some "1" := by
      rw [← trim_menuScript, scriptOfLine?_script]
      rfl
    simp [Passage.script?, menuNode, hline]
  have hplace : menuNode.place? = some "." := by decide
  have hnode : latest? (·.place? == some ".") [script, menuNode] = some menuNode := by
    simp [latest?, hplace]
  have hresource : latest? (·.registers? ".cs" == some "1") [script, menuNode] = some script := by
    have hnone : menuNode.registers? ".cs" = none := by decide
    simp [latest?, hnone, hregisters]
  have hleads : menuWire.leadsTo? ".cs" [script, menuNode] = some script := by
    have htarget : menuWire.value? "to" = some "." ∧
      menuWire.value? "method" = some "OnPressed" := by
      decide
    simp [Passage.leadsTo?, htarget, Passage.scriptAt?, hnode, hscript, hresource]
  have hwiring : wiring? ".cs" [] [script, menuNode, menuWire] = some [menuWire.tag script] := by
    have hkinds : script.kind = .extResource ∧ menuNode.kind = .node ∧
        menuWire.kind = .connection := ⟨rfl, by decide, by decide⟩
    simp [wiring?, Passage.Leaves, Passage.retained?, hkinds, hregisters, hleads]
  rw [connectionTags_parse, passages_menu, hwiring]
  rfl

/-- Such a scene is cut into its lines, whatever its resource. -/
theorem lines_menu {attributes : List Attribute}
    (h : (writtenPairs attributes).any Text.isLineBreak = false) :
    Text.lines (Text.join "\n" (menu (headerLine "ext_resource" attributes))) =
      menu (headerLine "ext_resource" attributes) := by
  have hresource : (headerLine "ext_resource" attributes).toList.any Text.isLineBreak = false := by
    have hfront : ('[' :: "ext_resource".toList).any Text.isLineBreak = false := by decide
    rw [headerLine, String.toList_ofList, ← List.cons_append, List.any_append, List.any_append,
      hfront, h]
    rfl
  have hrest : ∀ l ∈ ["[node name=\"Menu\"]", "script = ExtResource(\"1\")",
      "[connection to=\".\" method=\"OnPressed\"]"], l.toList.any Text.isLineBreak = false := by
    decide +kernel
  exact Text.lines_join (List.forall_mem_cons.mpr ⟨hresource, hrest⟩) (by simp [menu])

/-- A tag that is retained comes from a connection among the passages and the script that the
passages before lead it to. -/
theorem exists_of_mem_wiring {scriptExtension : String} {before after : List Passage}
    {tags : List Tag} (h : wiring? scriptExtension before after = some tags) {tag : Tag}
    (htag : tag ∈ tags) :
    ∃ front p back x, after = front ++ p :: back ∧ p.kind = .connection ∧
      p.leadsTo? scriptExtension (before ++ front) = some x ∧ tag = p.tag x := by
  induction after generalizing before tags with
  | nil =>
    cases h
    cases htag
  | cons p rest ih =>
    rw [wiring?] at h
    split at h
    · cases h
    · obtain ⟨tags', htags', rfl⟩ := Option.map_eq_some_iff.mp h
      rcases List.mem_append.mp htag with hfirst | hlater
      · by_cases hkind : p.kind = .connection
        · simp only [Passage.retained?, hkind, if_true, Option.mem_toList,
            Option.map_eq_some_iff] at hfirst
          obtain ⟨x, hx, rfl⟩ := hfirst
          exact ⟨[], p, rest, x, rfl, hkind, by rwa [List.append_nil], rfl⟩
        · simp [Passage.retained?, hkind] at hfirst
      · obtain ⟨front, q, back, x, rfl, hkind, hx, htag'⟩ := ih htags' hlater
        exact ⟨p :: front, q, back, x, rfl, hkind, by simpa using hx, htag'⟩

theorem lookup_reverse_of_count {key : String} {pairs : List (String × String)}
    (h : (pairs.map Prod.fst).count key ≤ 1) : pairs.reverse.lookup key = pairs.lookup key := by
  induction pairs with
  | nil => rfl
  | cons pair rest ih =>
    obtain ⟨k, value⟩ := pair
    rw [List.reverse_cons, List.lookup_append]
    by_cases hk : k = key
    · subst hk
      have hrest : rest.reverse.lookup k = none := by
        rw [List.lookup_eq_none_iff]
        rintro ⟨k', v⟩ hmem
        rw [bne_iff_ne]
        rintro rfl
        have hcount : 0 < (rest.map Prod.fst).count k := List.count_pos_iff.mpr
          (List.mem_map_of_mem (f := Prod.fst) (List.mem_reverse.mp hmem))
        simp only [List.map_cons, List.count_cons_self] at h
        omega
      simp [hrest]
    · have hcount : (rest.map Prod.fst).count key ≤ 1 := by
        rwa [List.map_cons, List.count_cons_of_ne hk] at h
      simp [ih hcount, List.lookup_cons, beq_eq_false_iff_ne.mpr (Ne.symm hk)]

namespace Passage
variable {scriptExtension : String} {p : Passage}

theorem kind_of_registers {id : String} (h : p.registers? scriptExtension = some id) :
    p.kind = .extResource ∧ Text.hasSuffix scriptExtension p.path = true ∧
      p.value? "id" = some id := by
  unfold registers? at h
  split at h
  · next hp => exact ⟨hp.1, hp.2, (Option.filter_eq_some_iff.mp h).1⟩
  · cases h

theorem leadsTo_eq_some {before : List Passage} {x : Passage}
    (h : p.leadsTo? scriptExtension before = some x) :
    ∃ target node id, p.value? "to" = some target ∧
      latest? (·.place? == some target) before = some node ∧ node.script? = some id ∧
      latest? (·.registers? scriptExtension == some id) before = some x := by
  unfold leadsTo? at h
  split at h
  · next method target _ htarget =>
    split at h
    · cases h
    · obtain ⟨node, hnode, h⟩ := Option.bind_eq_some_iff.mp h
      obtain ⟨id, hid, h⟩ := Option.bind_eq_some_iff.mp h
      exact ⟨target, node, id, htarget, hnode, hid, h⟩
  · cases h

/-- With one path at most in its header, a resource is cited under the path it is registered for. -/
theorem citedPath_eq_path (h : (p.header.pairs.map Prod.fst).count "path" ≤ 1) :
    p.citedPath = p.path := by
  rw [path, value?, Reading.lastValue?, lookup_reverse_of_count h, citedPath]

end Passage

theorem tag_of_mem_connections {asset : Asset} {n : Nat} {c : Connection}
    (h : (n, c) ∈ asset.connections) : c.tag ∈ asset.connectionTags := by
  simp only [Asset.connections, List.mem_map, Prod.mk.injEq] at h
  obtain ⟨⟨tag, m⟩, hmem, -, rfl⟩ := h
  exact (List.mem_zipIdx' hmem).2 ▸ List.getElem_mem _

/-- Whatever the lines, a retained connection cites the first path in the header of the resource
that was registered last under the identifier of the script of its target. The last path in that
header ends as scripts do; it is the one cited unless the header gives several. -/
theorem connection_cites {scriptExtension path : String} {lines : List String} {asset : Asset}
    (h : parse scriptExtension path lines = some asset) {n : Nat} {c : Connection}
    (hc : (n, c) ∈ asset.connections) :
    ∃ before p after x, passages (said lines) = before ++ p :: after ∧ p.kind = .connection ∧
      (∃ target node id, p.value? "to" = some target ∧
        latest? (·.place? == some target) before = some node ∧ node.script? = some id ∧
        latest? (·.registers? scriptExtension == some id) before = some x) ∧
      Text.hasSuffix scriptExtension x.path = true ∧
      c.tag.get? scriptPathKey = some x.citedPath ∧ c.scriptPath = x.citedPath ∧
      ((x.header.pairs.map Prod.fst).count "path" ≤ 1 →
        c.scriptPath = x.path ∧ Text.hasSuffix scriptExtension c.scriptPath = true) := by
  have htags := connectionTags_parse scriptExtension path lines
  rw [h, Option.map_some] at htags
  obtain ⟨hwiring, -⟩ := Option.filter_eq_some_iff.mp htags.symm
  obtain ⟨before, p, after, x, hsplit, hkind, hx, htag⟩ :=
    exists_of_mem_wiring hwiring (tag_of_mem_connections hc)
  have hcites : c.tag.get? scriptPathKey = some x.citedPath := by
    rw [htag]
    exact Reading.get?_withProperty _ _ _
  have hpath : c.scriptPath = x.citedPath := by rw [Connection.scriptPath, hcites, Option.getD_some]
  obtain ⟨target, node, id, htarget, hnode, hid, hlatest⟩ := Passage.leadsTo_eq_some hx
  have hregisters := (mem_of_latest? hlatest).2
  obtain ⟨-, hsuffix, -⟩ := Passage.kind_of_registers (eq_of_beq hregisters)
  refine ⟨before, p, after, x, hsplit, hkind, ⟨target, node, id, htarget, hnode, hid, hlatest⟩,
    hsuffix, hcites, hpath, fun hone => ?_⟩
  have hsame := Passage.citedPath_eq_path hone
  rw [hpath, hsame]
  exact ⟨rfl, hsuffix⟩

def scriptMenu : List String := menu "[ext_resource path=\"res://Menu.cs\" id=\"1\"]"

theorem connection_cites_scriptMenu :
    ∃ asset n c, parse ".cs" "Menu.tscn" scriptMenu = some asset ∧ (n, c) ∈ asset.connections ∧
      ∃ before p after x, passages (said scriptMenu) = before ++ p :: after ∧
        p.kind = .connection ∧
        (∃ target node id, p.value? "to" = some target ∧
          latest? (·.place? == some target) before = some node ∧ node.script? = some id ∧
          latest? (·.registers? ".cs" == some id) before = some x) ∧
        Text.hasSuffix ".cs" x.path = true ∧
        c.tag.get? scriptPathKey = some x.citedPath ∧ c.scriptPath = x.citedPath ∧
        ((x.header.pairs.map Prod.fst).count "path" ≤ 1 →
          c.scriptPath = x.path ∧ Text.hasSuffix ".cs" c.scriptPath = true) := by
  have hscript : scriptMenu = menu (headerLine "ext_resource"
      [.quoted "path" "res://Menu.cs", .quoted "id" "1"]) := rfl
  have htags := connectionTags_menu [.quoted "path" "res://Menu.cs", .quoted "id" "1"]
    rfl (by decide) rfl "Menu.tscn"
  rw [← hscript, Option.map_eq_some_iff] at htags
  obtain ⟨asset, hasset, htags⟩ := htags
  have hplaces : asset.connections.map Prod.fst = [0] := by
    rw [Asset.connections, htags]
    rfl
  obtain ⟨⟨n, c⟩, hc, -⟩ := List.mem_map.mp (hplaces ▸ List.mem_singleton_self 0)
  exact ⟨asset, n, c, hasset, hc, connection_cites hasset hc⟩

def pictureMenu : List String :=
  menu "[ext_resource path=\"res://icon.png\" path=\"res://Menu.cs\" id=\"1\"]"

/-- The connection cites the picture, which is no script. -/
theorem pictureMenu_cites_picture :
    (parse ".cs" "Menu.tscn" pictureMenu).map (fun asset =>
      asset.connections.map fun c => (c.2.method, c.2.scriptPath)) =
        some [("OnPressed", "res://icon.png")] ∧
      Text.hasSuffix ".cs" "res://icon.png" = false := by
  have hpicture : pictureMenu = menu (headerLine "ext_resource"
      [.quoted "path" "res://icon.png", .quoted "path" "res://Menu.cs", .quoted "id" "1"]) := rfl
  have htags := connectionTags_menu
    [.quoted "path" "res://icon.png", .quoted "path" "res://Menu.cs", .quoted "id" "1"]
    rfl (by decide) rfl "Menu.tscn"
  rw [← hpicture, Option.map_eq_some_iff] at htags
  obtain ⟨asset, hasset, htags⟩ := htags
  refine ⟨?_, by decide⟩
  rw [hasset, Option.map_some, Asset.connections, htags]
  rfl

end SceneCodegen.Scene
