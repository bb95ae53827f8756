import SceneCodegen.Proofs.Scene.Steps
import SceneCodegen.Proofs.Table

/-!
# Parsing of written scenes

A scene that was written as the engine lays it out, with blank lines and comments anywhere, is
parsed to its connections that lead to a script, each with the path of that script. What a reading
knows of the scene is stated by what it finds under each identifier and at each place; every part
that is read adds itself to this knowledge. A scene whose resources hold no script is either left at
the first header after them, or no connection of it can lead to one.
-/
namespace SceneCodegen.Scene

/-- The lines that are neither blank nor comments, trimmed. -/
def said (lines : List String) : List String :=
  (lines.map Text.trim).filter fun line => !Reading.isIgnored line

namespace Reading

/-- Takes in trimmed lines that all say something. -/
def addSaid (scriptExtension : String) : List String → Reading → Reading
  | [], r => r.closeNode
  | line :: rest, r =>
    let r := r.addLine scriptExtension line
    if r.abandoned then r else addSaid scriptExtension rest r

theorem addLines_eq (scriptExtension : String) (lines : List String) (r : Reading) :
    r.addLines scriptExtension lines = r.addSaid scriptExtension (said lines) := by
  induction lines generalizing r with
  | nil => rfl
  | cons line rest ih =>
    by_cases h : isIgnored (Text.trim line) = true
    · simp only [addLines, h, if_true, ih]
      simp [said, h]
    · simp only [addLines, h, ih]
      simp [said, h, addSaid]

/-- Reading the lines leads from one reading to the other, whatever lines come after them. -/
def Leads (scriptExtension : String) (lines : List String) (r r' : Reading) : Prop :=
  ∀ rest, r.addSaid scriptExtension (lines.map Text.trim ++ rest) =
    r'.addSaid scriptExtension rest

section
variable {scriptExtension : String} {r r' r'' : Reading}

theorem Leads.nil : Leads scriptExtension [] r r := fun _ => rfl

theorem Leads.append {lines lines' : List String} (h : Leads scriptExtension lines r r')
    (h' : Leads scriptExtension lines' r' r'') : Leads scriptExtension (lines ++ lines') r r'' := by
  intro rest
  rw [List.map_append, List.append_assoc, h, h']

theorem leads_line {line : String} (h : r.addLine scriptExtension (Text.trim line) = r')
    (hkept : r'.abandoned = false) : Leads scriptExtension [line] r r' := by
  intro rest
  simp [addSaid, h, hkept]

@[simp] theorem closeNode_abandoned (r : Reading) : r.closeNode.abandoned = r.abandoned := by
  unfold closeNode; split <;> rfl

@[simp] theorem closeNode_resources (r : Reading) : r.closeNode.resources = r.resources := by
  unfold closeNode; split <;> rfl

@[simp] theorem closeNode_previous (r : Reading) : r.closeNode.previous = r.previous := by
  unfold closeNode; split <;> rfl

@[simp] theorem closeNode_pending (r : Reading) : r.closeNode.pending = none := by
  unfold closeNode; split
  · assumption
  · rfl

theorem closeNode_of_pending (h : r.pending = none) : r.closeNode = r := by
  unfold closeNode; rw [h]

theorem closeNode_of_pending_some {path : String} {tag : Tag} (h : r.pending = some (path, tag)) :
    r.closeNode =
      { r with nodes := r.nodes.set path tag, tags := r.tags ++ [tag], pending := none } := by
  unfold closeNode; rw [h]

theorem showsNoScript_closeNode (kind : TagKind) (r : Reading) :
    r.closeNode.showsNoScript kind = r.showsNoScript kind := by
  simp [showsNoScript]

theorem showsNoScript_extResource (r : Reading) : r.showsNoScript .extResource = false := by
  simp [showsNoScript]

theorem addResource_previous (pairs : List (String × String)) (r : Reading) :
    (r.addResource scriptExtension pairs).previous = r.previous := by
  unfold addResource
  split <;> [rfl; split <;> rfl]

theorem addConnection_previous (pairs : List (String × String)) (r : Reading) :
    (r.addConnection pairs).previous = r.previous := by
  unfold addConnection
  split <;> [split <;> [rfl; split <;> rfl]; rfl]

theorem addHeader_abandoned (h : Header) (r : Reading) :
    (r.addHeader scriptExtension h).abandoned = r.abandoned := by
  unfold addHeader
  cases TagKind.ofHeader h.kind with
  | extResource => dsimp only [addResource]; split <;> [rfl; split <;> rfl]
  | node => dsimp only [openNode]; split <;> [rfl; split <;> rfl]
  | connection =>
    dsimp only [addConnection]
    split <;> [split <;> [rfl; split <;> rfl]; rfl]
  | other => rfl

theorem addLine_headerLine {kind : String} (hkind : IsKind kind.toList)
    (attributes : List Attribute) (r : Reading) :
    r.addLine scriptExtension (Text.trim (headerLine kind attributes)) =
      if r.showsNoScript (TagKind.ofHeader kind) then { r.closeNode with abandoned := true }
      else r.closeNode.addHeader scriptExtension ⟨kind, attributes.map Attribute.pair⟩ := by
  rw [trim_headerLine, addLine, Header.ofLine_headerLine hkind]
  dsimp only
  rw [showsNoScript_closeNode]

/-- A header that leaves the question of scripts open is taken in. -/
theorem leads_header {kind : String} (hkind : IsKind kind.toList) (attributes : List Attribute)
    (hopen : r.showsNoScript (TagKind.ofHeader kind) = false) (hkept : r.abandoned = false) :
    Leads scriptExtension [headerLine kind attributes] r
      (r.closeNode.addHeader scriptExtension ⟨kind, attributes.map Attribute.pair⟩) := by
  refine leads_line ?_ ?_
  · rw [addLine_headerLine hkind, hopen]
    rfl
  · rw [addHeader_abandoned, closeNode_abandoned, hkept]

theorem addLine_property (p : Property) (r : Reading) :
    r.addLine scriptExtension (Text.trim p.line) = r.addBodyLine (Text.trim p.line) := by
  obtain ⟨c, rest, hkey, hblank, hbracket, -⟩ := p.first
  obtain ⟨tail, htail⟩ := trim_property p
  rw [hkey] at htail
  rw [addLine, Header.ofLine_eq_none htail hblank hbracket]

/-- Outside of nodes no property counts, and in a node only the one that gives its script. -/
theorem leads_properties {properties : List Property}
    (h : r.current ≠ .node ∨ ∀ p ∈ properties, p.key ≠ scriptKey) (hkept : r.abandoned = false) :
    Leads scriptExtension (properties.map Property.line) r r := by
  induction properties with
  | nil => exact .nil
  | cons p rest ih =>
    have hidle : r.addBodyLine (Text.trim p.line) = r := by
      unfold addBodyLine
      split
      · next hcurrent _ hscript =>
        rcases h with h | h
        · exact absurd hcurrent h
        · rw [scriptOfLine?_property (h p (by simp))] at hscript
          cases hscript
      · rfl
    have hfirst : Leads scriptExtension [p.line] r r :=
      leads_line ((addLine_property p r).trans hidle) hkept
    exact hfirst.append (ih (h.imp_right fun h q hq => h q (List.mem_cons_of_mem _ hq)))

theorem leads_script {path : String} {tag : Tag} (hcurrent : r.current = .node)
    (hpending : r.pending = some (path, tag)) (hkept : r.abandoned = false) (id : ResourceId) :
    Leads scriptExtension [scriptLine id] r
      { r with pending := some (path, tag.withProperty scriptKey id.text) } := by
  have hhead : (Text.trim (scriptLine id)).toList = 's' :: (['c', 'r', 'i', 'p', 't', ' '] ++
      '=' :: ' ' :: reference id) := by
    rw [trim_scriptLine, toList_scriptKey]
    rfl
  refine leads_line ?_ hkept
  rw [addLine, Header.ofLine_eq_none hhead (by decide) (by decide)]
  simp only [addBodyLine, hcurrent, hpending, scriptOfLine?_script]

end

def connectionTags (r : Reading) : List Tag := r.tags.filter (·.kind == .connection)

/-- What has been read shows these resources, nodes and connections of a scene. -/
structure Shows (scriptExtension : String) (resources : List Resource) (nodes : List Placed)
    (connections : List Tag) (r : Reading) : Prop where
  resource : ∀ id, (r.resources.get? id).map (fun tag => (tag.get? "path").getD "") =
    (resources.find? fun x => x.id.text == id && Text.hasSuffix scriptExtension x.path).map
      Resource.path
  node : ∀ place, (r.closeNode.nodes.get? place).map (·.get? scriptKey) =
    (nodes.find? fun n => placeText n.place == place).map fun n => n.entry.script.map (·.text)
  connection : r.closeNode.connectionTags = connections
  kept : r.abandoned = false

/-- No header shows any more that the scene has no script. -/
def Open (r : Reading) : Prop := ∀ kind, r.showsNoScript kind = false

theorem open_of_previous {r : Reading} (h : r.previous ≠ some .extResource) : Open r := by
  intro kind
  simp [showsNoScript, h]

namespace Shows
variable {scriptExtension : String} {resources : List Resource} {nodes : List Placed}
  {connections : List Tag} {r : Reading}

/-- What is read is the same once the node is closed, whatever the kinds of the last headers. -/
theorem header (h : Shows scriptExtension resources nodes connections r) (kind : TagKind) :
    Shows scriptExtension resources nodes connections
      { r.closeNode with previous := some kind, current := kind } := by
  have hclosed : ({ r.closeNode with previous := some kind, current := kind } : Reading).closeNode =
      { r.closeNode with previous := some kind, current := kind } :=
    closeNode_of_pending (closeNode_pending r)
  constructor
  · intro id
    simpa using h.resource id
  · intro place
    rw [hclosed]
    exact h.node place
  · rw [hclosed]
    exact h.connection
  · simpa using h.kept

theorem resources_isEmpty (h : Shows scriptExtension resources nodes connections r) :
    r.resources.isEmpty = true ↔
      ∀ x ∈ resources, Text.hasSuffix scriptExtension x.path = false := by
  constructor
  · intro hempty x hx
    have hfind := h.resource x.id.text
    rw [List.isEmpty_iff.mp hempty] at hfind
    have hnone := Option.map_eq_none_iff.mp hfind.symm
    simpa using List.find?_eq_none.mp hnone x hx
  · intro hnone
    cases hr : r.resources with
    | nil => rfl
    | cons entry rest =>
      have hfind := h.resource entry.1
      have hget : r.resources.get? entry.1 = some entry.2 := by simp [hr, Table.get?]
      rw [hget] at hfind
      obtain ⟨x, hx, -⟩ := Option.map_eq_some_iff.mp hfind.symm
      have := List.find?_some hx
      simp [hnone x (List.mem_of_find?_eq_some hx)] at this

theorem addResource (h : Shows scriptExtension resources nodes connections r)
    (hpending : r.pending = none) {x : Resource} (hx : x.id ∉ resources.map Resource.id) :
    Shows scriptExtension (resources ++ [x]) nodes connections
      (r.addResource scriptExtension (x.attributes.map Attribute.pair)) := by
  have hfilled : (x.id.text == "") = false := beq_eq_false_iff_ne.mpr x.id.filled
  simp only [Reading.addResource, x.lastValue?_id, x.lastValue?_path, hfilled, Option.getD_some,
    Bool.false_or, Bool.not_eq_true']
  by_cases hsuffix : Text.hasSuffix scriptExtension x.path = false
  · rw [if_pos hsuffix]
    refine ⟨fun id => ?_, h.node, h.connection, h.kept⟩
    simp [h.resource id, List.find?_append, hsuffix]
  · rw [if_neg hsuffix]
    have hclosed := closeNode_of_pending hpending
    refine ⟨fun id => ?_, ?_, ?_, h.kept⟩
    · by_cases hid : x.id.text = id
      · subst hid
        have hnone : (resources.find? fun y => y.id.text == x.id.text &&
            Text.hasSuffix scriptExtension y.path) = none := by
          simp only [List.find?_eq_none, Bool.and_eq_true, beq_iff_eq, not_and]
          intro y hy hsame
          exact absurd (List.mem_map.mpr ⟨y, hy, ResourceId.text_injective hsame⟩) hx
        have hscript : Text.hasSuffix scriptExtension x.path = true := by simpa using hsuffix
        simp [Table.get?_set_self, List.find?_append, hnone, hscript, Tag.get?, x.lookup_path]
      · have hother := h.resource id
        simp [Table.get?_set_of_ne hid, List.find?_append, hid, hother]
    · intro place
      rw [closeNode_of_pending (by exact hpending)]
      have := h.node place
      rwa [hclosed] at this
    · rw [closeNode_of_pending (by exact hpending)]
      have := h.connection
      rw [hclosed] at this
      simpa [connectionTags] using this

/-- Resources are read one after the other. That the last header was one tells whether there were
any. -/
theorem leads_resources (h : Shows scriptExtension resources nodes connections r)
    (hprevious : r.previous = some .extResource ↔ resources ≠ []) (xs : List Resource)
    (hids : ((resources ++ xs).map Resource.id).Nodup) :
    ∃ r', Leads scriptExtension (xs.map Resource.line) r r' ∧
      Shows scriptExtension (resources ++ xs) nodes connections r' ∧
      (r'.previous = some .extResource ↔ resources ++ xs ≠ []) := by
  induction xs generalizing resources r with
  | nil => exact ⟨r, .nil, by simpa using h, by simpa using hprevious⟩
  | cons x xs ih =>
    have hx : x.id ∉ resources.map Resource.id := by
      simp only [List.map_append, List.map_cons, List.nodup_append] at hids
      exact fun hmem => hids.2.2 _ hmem _ (by simp) rfl
    have hfirst : Leads scriptExtension [x.line] r _ :=
      leads_header isKind_extResource x.attributes (showsNoScript_extResource r) h.kept
    have hshows := (h.header .extResource).addResource (closeNode_pending r) hx
    obtain ⟨r', hleads, hshows', hprevious'⟩ := ih hshows
      (by simp [addResource_previous]) (by simpa using hids)
    exact ⟨r', hfirst.append hleads, by simpa using hshows', by simpa using hprevious'⟩

/-- After the resources, a scene is left only if there are some and none is a script. -/
theorem open_of_script (h : Shows scriptExtension resources nodes connections r)
    (hprevious : r.previous = some .extResource ↔ resources ≠ [])
    (hscript : resources = [] ∨ ∃ x ∈ resources, Text.hasSuffix scriptExtension x.path = true) :
    Open r := by
  rcases hscript with hnone | ⟨x, hx, hsuffix⟩
  · exact open_of_previous fun hp => hprevious.mp hp hnone
  · have hfilled : r.resources.isEmpty = false := by
      rw [Bool.eq_false_iff]
      intro hempty
      rw [h.resources_isEmpty.mp hempty x hx] at hsuffix
      cases hsuffix
    intro kind
    simp [showsNoScript, hfilled]

theorem leads_sections (h : Shows scriptExtension resources nodes connections r) (hopen : Open r)
    (xs : List Section) :
    ∃ r', Leads scriptExtension (xs.flatMap Section.lines) r r' ∧
      Shows scriptExtension resources nodes connections r' ∧ Open r' := by
  induction xs generalizing r with
  | nil => exact ⟨r, .nil, h, hopen⟩
  | cons x xs ih =>
    have hheader : Leads scriptExtension [headerLine "sub_resource" x.attributes] r
        { r.closeNode with previous := some .other, current := .other } :=
      leads_header isKind_subResource x.attributes (hopen _) h.kept
    have hshows := h.header .other
    have hbody : Leads scriptExtension (x.properties.map Property.line)
        { r.closeNode with previous := some .other, current := .other } _ :=
      leads_properties (.inl (by simp)) hshows.kept
    obtain ⟨r', hleads, hrest⟩ := ih hshows (open_of_previous (by simp))
    exact ⟨r', (hheader.append hbody).append hleads, hrest⟩

end Shows

theorem get?_withProperty (key value : String) (tag : Tag) :
    (tag.withProperty key value).get? key = some value := by
  have hfilter : (tag.properties.filter (·.1 != key)).lookup key = none := by
    rw [List.lookup_eq_none_iff]
    intro p hp
    rw [bne_comm]
    exact (List.mem_filter.mp hp).2
  simp [Tag.get?, Tag.withProperty, List.lookup_append, hfilter]

def headTag (n : Placed) : Tag :=
  ⟨.node, if n.parent.isSome then n.entry.name.text else rootName, n.attributes.map Attribute.pair⟩

def nodeTag (n : Placed) : Tag :=
  n.entry.script.elim (headTag n) fun id => (headTag n).withProperty scriptKey id.text

theorem get?_nodeTag (n : Placed) :
    (nodeTag n).get? scriptKey = n.entry.script.map (·.text) := by
  unfold nodeTag
  cases n.entry.script with
  | none => exact n.lookup_script
  | some id => exact get?_withProperty scriptKey id.text (headTag n)

theorem addHeader_node (scriptExtension : String) (n : Placed) (r : Reading) :
    r.addHeader scriptExtension ⟨"node", n.attributes.map Attribute.pair⟩ =
      { r with
        previous := some .node
        current := .node
        pending := some (placeText n.place, headTag n) } := by
  have hfilled : (n.entry.name.text == "") = false := beq_eq_false_iff_ne.mpr n.entry.name.filled
  show openNode _ _ = _
  simp only [openNode, n.lastValue?_name, n.lastValue?_parent, hfilled, nodePath_placed]
  simp [headTag]
  rfl

theorem leads_body {scriptExtension : String} {r : Reading} (n : Placed)
    (hcurrent : r.current = .node) (hpending : r.pending = some (placeText n.place, headTag n))
    (hkept : r.abandoned = false) :
    Leads scriptExtension n.bodyLines r
      { r with pending := some (placeText n.place, nodeTag n) } := by
  have hbefore : Leads scriptExtension (n.entry.before.map Property.line) r r :=
    leads_properties (.inr fun p hp => n.entry.properties_keys p (List.mem_append_left _ hp)) hkept
  have hscript : Leads scriptExtension (n.entry.script.map scriptLine).toList r
      { r with pending := some (placeText n.place, nodeTag n) } := by
    unfold nodeTag
    cases n.entry.script with
    | none =>
      rw [Option.elim_none, ← hpending]
      exact .nil
    | some id => exact leads_script hcurrent hpending hkept id
  have hafter : Leads scriptExtension (n.entry.after.map Property.line)
      { r with pending := some (placeText n.place, nodeTag n) } _ :=
    leads_properties (.inr fun p hp => n.entry.properties_keys p (List.mem_append_right _ hp)) hkept
  exact (hbefore.append hscript).append hafter

namespace Shows
variable {scriptExtension : String} {resources : List Resource} {nodes : List Placed}
  {connections : List Tag} {r : Reading}

/-- A node whose body is read counts as soon as it is closed. -/
theorem node_read (h : Shows scriptExtension resources nodes connections r) {n : Placed}
    (hn : placeText n.place ∉ nodes.map fun n => placeText n.place) :
    Shows scriptExtension resources (nodes ++ [n]) connections
      { r.closeNode with
        previous := some .node
        current := .node
        pending := some (placeText n.place, nodeTag n) } := by
  have hkind : (nodeTag n).kind = .node := by
    unfold nodeTag
    cases n.entry.script <;> rfl
  refine ⟨fun id => by simpa using h.resource id, fun place => ?_, ?_, by simpa using h.kept⟩
  · rw [closeNode_of_pending_some rfl]
    by_cases hplace : placeText n.place = place
    · subst hplace
      have hnone : (nodes.find? fun m => placeText m.place == placeText n.place) = none := by
        simp only [List.find?_eq_none, beq_iff_eq]
        exact fun m hm hsame => hn (List.mem_map.mpr ⟨m, hm, hsame⟩)
      simp [Table.get?_set_self, List.find?_append, hnone, get?_nodeTag]
    · have hother := h.node place
      simp [Table.get?_set_of_ne hplace, List.find?_append, hplace, hother]
  · rw [closeNode_of_pending_some rfl]
    have htags := h.connection
    simpa [connectionTags, hkind] using htags

theorem leads_nodes (h : Shows scriptExtension resources nodes connections r) (hopen : Open r)
    (ns : List Placed) (hplaces : ((nodes ++ ns).map fun n => placeText n.place).Nodup) :
    ∃ r', Leads scriptExtension (ns.flatMap Placed.lines) r r' ∧
      Shows scriptExtension resources (nodes ++ ns) connections r' ∧ Open r' := by
  induction ns generalizing nodes r with
  | nil => exact ⟨r, .nil, by simpa using h, hopen⟩
  | cons n ns ih =>
    have hn : placeText n.place ∉ nodes.map fun n => placeText n.place := by
      simp only [List.map_append, List.map_cons, List.nodup_append] at hplaces
      exact fun hmem => hplaces.2.2 _ hmem _ (by simp) rfl
    have hheader : Leads scriptExtension [headerLine "node" n.attributes] r _ :=
      leads_header isKind_node n.attributes (hopen _) h.kept
    rw [addHeader_node] at hheader
    have hkept : r.closeNode.abandoned = false := by simpa using h.kept
    have hbody : Leads scriptExtension n.bodyLines
        { r.closeNode with
          previous := some .node
          current := .node
          pending := some (placeText n.place, headTag n) } _ :=
      leads_body n rfl rfl hkept
    obtain ⟨r', hleads, hshows, hopen'⟩ := ih (h.node_read hn) (open_of_previous (by simp))
      (by simpa using hplaces)
    exact ⟨r', (hheader.append hbody).append hleads, by simpa using hshows, hopen'⟩

/-- The script at a place is found through the node and the resource that are known. -/
theorem scriptOf? (h : Shows scriptExtension resources nodes connections r)
    (hpending : r.pending = none) (place : String) :
    (r.scriptOf? place).map (fun tag => (tag.get? "path").getD "") =
      (scriptAt? scriptExtension resources nodes place).map Resource.path := by
  have hnode := h.node place
  rw [closeNode_of_pending hpending] at hnode
  unfold Reading.scriptOf? scriptAt?
  cases hget : r.nodes.get? place with
  | none =>
    rw [hget] at hnode
    simp [Option.map_eq_none_iff.mp hnode.symm]
  | some tag =>
    rw [hget] at hnode
    obtain ⟨n, hn, hscript⟩ := Option.map_eq_some_iff.mp hnode.symm
    cases hid : n.entry.script with
    | none =>
      rw [hid] at hscript
      simp [hn, hid, ← hscript]
    | some id =>
      rw [hid] at hscript
      simpa [hn, hid, ← hscript] using h.resource id.text

theorem addConnection (h : Shows scriptExtension resources nodes connections r)
    (hpending : r.pending = none) (w : Wire) :
    Shows scriptExtension resources nodes
      (connections ++ ((kept? scriptExtension resources nodes w).map fun k => k.1.tag k.2).toList)
      (r.addConnection (w.attributes.map Attribute.pair)) := by
  have hscript := h.scriptOf? hpending w.target
  simp only [Reading.addConnection, w.lastValue?_method, w.lastValue?_to, kept?, beq_iff_eq]
  by_cases hmethod : w.method = ""
  · simpa [hmethod] using h
  · rw [if_neg hmethod, if_neg hmethod]
    cases hfound : r.scriptOf? w.target with
    | none =>
      rw [hfound] at hscript
      simpa [Option.map_eq_none_iff.mp hscript.symm] using h
    | some tag =>
      rw [hfound] at hscript
      obtain ⟨x, hx, hsame⟩ := Option.map_eq_some_iff.mp hscript.symm
      have hpath : (tag.get? "path").getD "" = x.path := hsame.symm
      have htag : Tag.withProperty scriptPathKey ((tag.get? "path").getD "")
          ⟨.connection, w.method, w.attributes.map Attribute.pair⟩ = w.tag x := by
        rw [hpath, Tag.withProperty, w.filter_scriptPath, Wire.tag]
      have htags := h.connection
      rw [closeNode_of_pending hpending] at htags
      refine ⟨h.resource, fun place => ?_, ?_, h.kept⟩
      · rw [closeNode_of_pending (by exact hpending)]
        simpa [closeNode_of_pending hpending] using h.node place
      · rw [closeNode_of_pending (by exact hpending)]
        simp only [connectionTags] at htags
        simp [connectionTags, hx, htag, htags, Wire.tag]

theorem leads_wires (h : Shows scriptExtension resources nodes connections r) (hopen : Open r)
    (ws : List Wire) :
    ∃ r', Leads scriptExtension (ws.map Wire.line) r r' ∧
      Shows scriptExtension resources nodes (connections ++
        (ws.filterMap (kept? scriptExtension resources nodes)).map fun k => k.1.tag k.2) r' := by
  induction ws generalizing connections r with
  | nil => exact ⟨r, .nil, by simpa using h⟩
  | cons w ws ih =>
    have hfirst : Leads scriptExtension [w.line] r _ :=
      leads_header isKind_connection w.attributes (hopen _) h.kept
    have hshows := (h.header .connection).addConnection (closeNode_pending r) w
    obtain ⟨r', hleads, hshows'⟩ := ih hshows
      (open_of_previous (by simp [addConnection_previous]))
    refine ⟨r', hfirst.append hleads, ?_⟩
    cases hkept : kept? scriptExtension resources nodes w <;> simpa [hkept] using hshows'

end Shows

/-- What is known of a scene after its resources. -/
theorem leads_listing (s : Source) (scriptExtension : String) :
    ∃ r, Leads scriptExtension (headerLine "gd_scene" s.attributes :: s.resources.map Resource.line)
        {} r ∧
      Shows scriptExtension s.resources [] [] r ∧
      (r.previous = some .extResource ↔ s.resources ≠ []) := by
  have hstart : Shows scriptExtension [] [] [] ({} : Reading) :=
    ⟨fun _ => rfl, fun _ => rfl, rfl, rfl⟩
  have hheader : Leads scriptExtension [headerLine "gd_scene" s.attributes] {} _ :=
    leads_header isKind_scene s.attributes rfl rfl
  obtain ⟨r, hleads, hshows, hprevious⟩ := (hstart.header .other).leads_resources
    (by simp) s.resources (by simpa using s.distinctIds)
  exact ⟨r, hheader.append hleads, by simpa using hshows, by simpa using hprevious⟩

theorem leads_scene (s : Source) {scriptExtension : String}
    (hscript : s.resources = [] ∨
      ∃ x ∈ s.resources, Text.hasSuffix scriptExtension x.path = true) :
    ∃ r, Leads scriptExtension s.lines {} r ∧
      Shows scriptExtension s.resources s.nodes
        ((s.wires.filterMap (kept? scriptExtension s.resources s.nodes)).map
          fun k => k.1.tag k.2) r := by
  obtain ⟨r₁, hlisting, hshows, hprevious⟩ := leads_listing s scriptExtension
  obtain ⟨r₂, hsections, hshows, hopen⟩ :=
    hshows.leads_sections (hshows.open_of_script hprevious hscript) s.sections
  obtain ⟨r₃, hnodes, hshows, hopen⟩ :=
    hshows.leads_nodes hopen s.nodes (by simpa using s.nodup_placeTexts)
  obtain ⟨r₄, hwires, hshows⟩ := hshows.leads_wires hopen s.wires
  exact ⟨r₄, ((hlisting.append hsections).append hnodes).append hwires, by simpa using hshows⟩

/-- The first line after the resources is the header of a section or a node. -/
theorem exists_header_after_resources (s : Source) :
    ∃ kind attributes rest, IsKind kind.toList ∧ TagKind.ofHeader kind ≠ .extResource ∧
      s.lines = headerLine "gd_scene" s.attributes :: s.resources.map Resource.line ++
        headerLine kind attributes :: rest := by
  unfold Source.lines
  cases hsections : s.sections with
  | cons x xs =>
    exact ⟨"sub_resource", x.attributes, _, isKind_subResource, by decide,
      by simp [Section.lines]; rfl⟩
  | nil =>
    rcases hroot : s.root with ⟨entry, children⟩
    exact ⟨"node", _, _, isKind_node, by decide,
      by simp [Source.nodes, hroot, Tree.nodes, Placed.lines]; exact ⟨rfl, rfl⟩⟩

/-- A scene with resources but without a script is left. -/
theorem abandoned_of_noScript (s : Source) {scriptExtension : String} (hne : s.resources ≠ [])
    (hnone : ∀ x ∈ s.resources, Text.hasSuffix scriptExtension x.path = false) :
    (({} : Reading).addSaid scriptExtension (s.lines.map Text.trim)).abandoned = true := by
  obtain ⟨r, hleads, hshows, hprevious⟩ := leads_listing s scriptExtension
  obtain ⟨kind, attributes, rest, hkind, hother, hlines⟩ := exists_header_after_resources s
  have hleft : r.showsNoScript (TagKind.ofHeader kind) = true := by
    simp [showsNoScript, hprevious.mpr hne, hshows.resources_isEmpty.mpr hnone, hother]
  rw [hlines, List.map_append, hleads, List.map_cons, addSaid, addLine_headerLine hkind, hleft]
  rfl

end Reading

theorem Reading.asset?_of_kept {r : Reading} (hkept : r.abandoned = false) (path : String) :
    r.asset? path = if r.connectionTags = [] then none else some ⟨path, r.tags⟩ := by
  have hany : (r.tags.any (·.kind == .connection)) = true ↔ r.connectionTags ≠ [] := by
    rw [connectionTags, ne_eq, List.filter_eq_nil_iff]
    simp
  by_cases h : r.connectionTags = []
  · have hnone : (r.tags.any (·.kind == .connection)) = false := by
      rw [Bool.eq_false_iff, ne_eq, hany]
      exact not_not_intro h
    simp [asset?, hnone, h]
  · simp [asset?, hkept, hany.mpr h, h]

/-- The parser leaves only scenes of which no connection leads to a script; of any other it retains
the connections that do. -/
theorem parse_cases (s : Source) (scriptExtension path : String) {lines : List String}
    (hlines : said lines = s.lines.map Text.trim) :
    let kept := s.wires.filterMap (kept? scriptExtension s.resources s.nodes)
    (kept = [] ∧ parse scriptExtension path lines = none) ∨
      (kept ≠ [] ∧ ∃ asset, parse scriptExtension path lines = some asset ∧ asset.path = path ∧
        asset.connectionTags = kept.map fun k => k.1.tag k.2) := by
  intro kept
  have hread : Reading.ofLines scriptExtension lines =
      ({} : Reading).addSaid scriptExtension (s.lines.map Text.trim) := by
    rw [Reading.ofLines, Reading.addLines_eq, hlines]
  by_cases hscript : s.resources = [] ∨
      ∃ x ∈ s.resources, Text.hasSuffix scriptExtension x.path = true
  · obtain ⟨r, hleads, hshows⟩ := Reading.leads_scene s hscript
    have hlast : Reading.ofLines scriptExtension lines = r.closeNode := by
      rw [hread, ← List.append_nil (s.lines.map Text.trim), hleads]
      rfl
    have hparse : parse scriptExtension path lines =
        if kept.map (fun k => k.1.tag k.2) = [] then none else some ⟨path, r.closeNode.tags⟩ := by
      rw [parse, hlast, Reading.asset?_of_kept (by simpa using hshows.kept), hshows.connection]
    by_cases hkept : kept = []
    · exact .inl ⟨hkept, by simpa [hkept] using hparse⟩
    · refine .inr ⟨hkept, ⟨path, r.closeNode.tags⟩, by simpa [hkept] using hparse, rfl, ?_⟩
      exact hshows.connection
  · obtain ⟨hne, hnone⟩ := not_or.mp hscript
    have hleft := Reading.abandoned_of_noScript s hne fun x hx =>
      Bool.eq_false_iff.mpr fun hsuffix => hnone ⟨x, hx, hsuffix⟩
    rw [← hread] at hleft
    refine .inl ⟨?_, by simp [parse, Reading.asset?, hleft]⟩
    rw [List.filterMap_eq_nil_iff]
    intro w _
    by_contra hsome
    obtain ⟨k, hk⟩ := Option.ne_none_iff_exists'.mp hsome
    obtain ⟨-, -, hx, hsuffix, -⟩ := (s.kept?_eq_some_iff scriptExtension).mp hk
    exact hnone ⟨k.2, hx, hsuffix⟩

theorem isIgnored_property (p : Property) :
    Reading.isIgnored (Text.trim p.line) = false := by
  obtain ⟨c, rest, hkey, -, -, hcomment⟩ := p.first
  obtain ⟨tail, htail⟩ := trim_property p
  rw [hkey] at htail
  exact isIgnored_eq_false htail hcomment

theorem isIgnored_scriptLine (id : ResourceId) :
    Reading.isIgnored (Text.trim (scriptLine id)) = false := by
  have hline := trim_scriptLine id
  rw [toList_scriptKey] at hline
  exact isIgnored_eq_false hline (by decide)

theorem isIgnored_header (kind : String) (attributes : List Attribute) :
    Reading.isIgnored (Text.trim (headerLine kind attributes)) = false := by
  rw [trim_headerLine, isIgnored_headerLine]

/-- No line that is written for a scene is blank or a comment. -/
theorem said_lines (s : Source) : said s.lines = s.lines.map Text.trim := by
  rw [said, List.filter_eq_self]
  intro trimmed htrimmed
  obtain ⟨line, hline, rfl⟩ := List.mem_map.mp htrimmed
  rw [Bool.not_eq_true']
  simp only [Source.lines, List.mem_cons, List.mem_append, List.mem_map, List.mem_flatMap] at hline
  rcases hline with rfl | (((⟨x, -, rfl⟩ | ⟨x, -, hx⟩) | ⟨n, -, hn⟩) | ⟨w, -, rfl⟩)
  · exact isIgnored_header _ _
  · exact isIgnored_header _ _
  · rcases List.mem_cons.mp hx with rfl | hx
    · exact isIgnored_header _ _
    · obtain ⟨p, -, rfl⟩ := List.mem_map.mp hx
      exact isIgnored_property p
  · simp only [Placed.lines, Placed.bodyLines, List.mem_cons, List.mem_append, List.mem_map,
      Option.mem_toList, Option.map_eq_some_iff] at hn
    rcases hn with rfl | (⟨p, -, rfl⟩ | ⟨id, -, rfl⟩) | ⟨p, -, rfl⟩
    · exact isIgnored_header _ _
    · exact isIgnored_property p
    · exact isIgnored_scriptLine id
    · exact isIgnored_property p
  · exact isIgnored_header _ _

/-- Parsing a scene as it was written, with blank lines and comments anywhere, gives nothing just if
no connection with a method leads to a script, and otherwise exactly these connections in order,
each with its attributes and the path of its script. -/
theorem parse_written (s : Source) (scriptExtension path : String) {lines : List String}
    (hlines : said lines = s.lines.map Text.trim) :
    (parse scriptExtension path lines = none ↔ ∀ w ∈ s.wires, ¬ s.Wired scriptExtension w) ∧
      ∀ asset, parse scriptExtension path lines = some asset →
        ∃ kept : List (Wire × Resource),
          kept.map Prod.fst = s.wires.filter (fun w => s.Wired scriptExtension w) ∧
          (∀ k ∈ kept, s.LeadsTo scriptExtension k.1 k.2) ∧
          asset.connections =
            kept.zipIdx.map fun (k, place) => (place, ⟨path, k.1.tag k.2⟩) := by
  obtain ⟨hwired, hleads⟩ := s.filterMap_kept? scriptExtension
  have hnone : s.wires.filterMap (kept? scriptExtension s.resources s.nodes) = [] ↔
      ∀ w ∈ s.wires, ¬ s.Wired scriptExtension w := by
    rw [← List.map_eq_nil_iff (f := Prod.fst), hwired, List.filter_eq_nil_iff]
    simp
  rcases parse_cases s scriptExtension path hlines with ⟨hempty, hparse⟩ |
    ⟨hfilled, asset, hparse, hpath, htags⟩
  · refine ⟨iff_of_true hparse (hnone.mp hempty), fun asset hasset => ?_⟩
    rw [hparse] at hasset
    cases hasset
  · refine ⟨iff_of_false (by simp [hparse]) fun h => hfilled (hnone.mpr h), fun asset' hasset => ?_⟩
    rw [hparse] at hasset
    cases hasset
    refine ⟨_, hwired, hleads, ?_⟩
    rw [Asset.connections, htags, hpath, List.zipIdx_map, List.map_map]
    rfl

theorem parse_written_buttonScene :
    parse ".cs" "res://menu.tscn" ("; the menu" :: "" :: buttonScene.lines) ≠ none := by
  have hlines : said ("; the menu" :: "" :: buttonScene.lines) =
      buttonScene.lines.map Text.trim := by
    rw [← said_lines]
    rfl
  intro hnone
  refine (parse_written buttonScene ".cs" "res://menu.tscn" hlines).1.mp hnone
    ⟨"pressed", "Start", "Start", "OnPressed", [], by simp⟩ (by simp [buttonScene]) ?_
  rw [Source.wired_iff]
  decide

end SceneCodegen.Scene
