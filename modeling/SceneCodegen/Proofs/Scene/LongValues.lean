import SceneCodegen.Proofs.Scene.Passages

/-!
# Values over several lines

A property may hold a text in quotes that spans several lines, as a rich text does. The parser knows
nothing of open quotes: it looks at each line of such a text by itself. In the body of a node or a
section the text still leaves no trace as long as none of its lines is the header of a resource, a
node or a connection, no other header stands before the script of the node, and no line assigns a
script after it. A header of another kind ends the body of its node early, which then has no script.
-/
namespace SceneCodegen.Scene

/-- Whether a quote is open after some characters of a value; `inQuote` tells whether it was before
them. -/
def quoteOpen : (inQuote : Bool) → List Char → Bool
  | inQuote, [] => inQuote
  | true, '\\' :: _ :: rest => quoteOpen true rest
  | inQuote, c :: rest => quoteOpen (if c == '"' then !inQuote else inQuote) rest

/-- A property other than the script, the value of which ends lines inside quotes only. -/
structure LongProperty extends Property where
  more : List String
  notScript : key ≠ scriptKey
  spans : more ≠ []
  opened : ∀ n < more.length,
    quoteOpen false ("\n".intercalate (value :: more.take n)).toList = true
  closed : quoteOpen false ("\n".intercalate (value :: more)).toList = false

def LongProperty.lines (p : LongProperty) : List String := p.line :: p.more

/-- A line of a scene, or a property over several lines. -/
inductive Piece
  | line (text : String)
  | long (p : LongProperty)

def Piece.lines : Piece → List String
  | line text => [text]
  | long p => p.lines

def writtenLines (pieces : List Piece) : List String := pieces.flatMap Piece.lines

/-- The lines without the properties that span several. -/
def shortLines (pieces : List Piece) : List String :=
  pieces.filterMap fun
    | .line text => some text
    | .long _ => none

def sectionAfter (kind : TagKind) (pieces : List Piece) : TagKind :=
  ((said (shortLines pieces)).filterMap Header.ofLine).getLast?.elim kind
    fun h => TagKind.ofHeader h.kind

/-- Whether a script is assigned before the next header. -/
def scriptFollows (pieces : List Piece) : Bool :=
  ((said (shortLines pieces)).takeWhile fun l => !isHeader l).any
    fun l => (Reading.scriptOfLine? l).isSome

/-- The property stands in the body of a node, or in one that is of no interest. -/
def InBody (kind : TagKind) : Prop := kind = .node ∨ kind = .other

/-- No line of the text can be taken for a resource, a node or a connection, nor for what would
change the script of the node around it. -/
structure LongProperty.Inert (p : LongProperty) (kind : TagKind) (awaited : Bool) : Prop where
  header : ∀ line ∈ p.more, ∀ h, Header.ofLine (Text.trim line) = some h →
    TagKind.ofHeader h.kind = .other ∧ (kind = .node → awaited = false)
  script : ∀ line ∈ p.more, kind = .node → awaited = false →
    Reading.scriptOfLine? (Text.trim line) = none

theorem said_append (lines lines' : List String) :
    said (lines ++ lines') = said lines ++ said lines' := by
  simp [said]

theorem said_cons (line : String) (lines : List String) :
    said (line :: lines) =
      if Reading.isIgnored (Text.trim line) then said lines else Text.trim line :: said lines := by
  by_cases h : Reading.isIgnored (Text.trim line) = true <;> simp [said, h]

section
variable {text : String} {pieces : List Piece}

theorem writtenLines_line : writtenLines (.line text :: pieces) = text :: writtenLines pieces := rfl

theorem writtenLines_long (p : LongProperty) :
    writtenLines (.long p :: pieces) = p.lines ++ writtenLines pieces := rfl

theorem shortLines_line : shortLines (.line text :: pieces) = text :: shortLines pieces := rfl

theorem shortLines_long (p : LongProperty) :
    shortLines (.long p :: pieces) = shortLines pieces := rfl

theorem scriptFollows_long (p : LongProperty) :
    scriptFollows (.long p :: pieces) = scriptFollows pieces := rfl

theorem sectionAfter_ignored (kind : TagKind) (h : Reading.isIgnored (Text.trim text) = true) :
    sectionAfter kind (.line text :: pieces) = sectionAfter kind pieces := by
  simp [sectionAfter, shortLines_line, said_cons, h]

theorem scriptFollows_ignored (h : Reading.isIgnored (Text.trim text) = true) :
    scriptFollows (.line text :: pieces) = scriptFollows pieces := by
  simp [scriptFollows, shortLines_line, said_cons, h]

theorem sectionAfter_header (kind : TagKind) (h : Reading.isIgnored (Text.trim text) = false)
    {header : Header} (hline : Header.ofLine (Text.trim text) = some header) :
    sectionAfter kind (.line text :: pieces) =
      sectionAfter (TagKind.ofHeader header.kind) pieces := by
  simp only [sectionAfter, shortLines_line, said_cons, h, Bool.false_eq_true, if_false,
    List.filterMap_cons, hline, List.getLast?_cons]
  cases ((said (shortLines pieces)).filterMap Header.ofLine).getLast? <;> rfl

theorem scriptFollows_header (h : Reading.isIgnored (Text.trim text) = false)
    {header : Header} (hline : Header.ofLine (Text.trim text) = some header) :
    scriptFollows (.line text :: pieces) = false := by
  simp [scriptFollows, shortLines_line, said_cons, h, isHeader, hline]

theorem sectionAfter_body (kind : TagKind) (hline : Header.ofLine (Text.trim text) = none) :
    sectionAfter kind (.line text :: pieces) = sectionAfter kind pieces := by
  by_cases h : Reading.isIgnored (Text.trim text) = true <;>
    simp [sectionAfter, shortLines_line, said_cons, h, hline]

theorem scriptFollows_body (h : Reading.isIgnored (Text.trim text) = false)
    (hline : Header.ofLine (Text.trim text) = none) :
    scriptFollows (.line text :: pieces) =
      ((Reading.scriptOfLine? (Text.trim text)).isSome || scriptFollows pieces) := by
  simp [scriptFollows, shortLines_line, said_cons, h, isHeader, hline]

end

namespace Reading

theorem withProperty_withProperty (key value value' : String) (tag : Tag) :
    (tag.withProperty key value).withProperty key value' = tag.withProperty key value' := by
  simp [Tag.withProperty, List.filter_append]

/-- A reading is in a section of this kind. -/
structure InSection (kind : TagKind) (r : Reading) : Prop where
  current : r.current = .node → kind = .node
  previous : r.previous = some .extResource → kind = .extResource
  kept : r.abandoned = false

/-- How a reading can differ from the one without the long values: a line of a text has assigned a
script to a node that is still to be given one, or has closed the node that is given none. -/
inductive Trails (awaited : Bool) : Reading → Reading → Prop
  | same (r : Reading) : Trails awaited r r
  | assigned {r : Reading} {place : String} {tag : Tag} (id : String) (hcurrent : r.current = .node)
      (hpending : r.pending = some (place, tag)) (hawaited : awaited = true) :
      Trails awaited { r with pending := some (place, tag.withProperty scriptKey id) } r
  | closed {r : Reading} (hidle : r.current = .node → awaited = false)
      (hprevious : r.previous ≠ some .extResource) :
      Trails awaited { r.closeNode with previous := some .other, current := .other } r

section
variable {scriptExtension : String} {awaited : Bool} {kind : TagKind} {r r' : Reading}

theorem Trails.kept (h : Trails awaited r r') (hkept : r'.abandoned = false) :
    r.abandoned = false := by
  cases h <;> simpa using hkept

theorem addLine_header {line : String} {h : Header} (hline : Header.ofLine line = some h)
    (hprevious : r.previous ≠ some .extResource) :
    r.addLine scriptExtension line = r.closeNode.addHeader scriptExtension h := by
  have hopen (kind : TagKind) : r.closeNode.showsNoScript kind = false := by
    simp [showsNoScript, hprevious]
  simp [addLine, hline, hopen]

theorem addLine_other {line : String} {h : Header} (hline : Header.ofLine line = some h)
    (hkind : TagKind.ofHeader h.kind = .other) (hprevious : r.previous ≠ some .extResource) :
    r.addLine scriptExtension line =
      { r.closeNode with previous := some .other, current := .other } := by
  simp [addLine_header hline hprevious, hkind, addHeader]

/-- A line of a text changes no more than such a reading may differ. -/
theorem Trails.textLine (h : Trails awaited r r') (hr' : InSection kind r') (hbody : InBody kind)
    {line : String}
    (hheader : ∀ h, Header.ofLine line = some h →
      TagKind.ofHeader h.kind = .other ∧ (kind = .node → awaited = false))
    (hscript : kind = .node → awaited = false → scriptOfLine? line = none) :
    Trails awaited (r.addLine scriptExtension line) r' := by
  have hprevious : r'.previous ≠ some .extResource := by
    intro hp
    have hext := hr'.previous hp
    rcases hbody with hnode | hother <;> simp_all
  cases hline : Header.ofLine line with
  | some header =>
    obtain ⟨hother, hfree⟩ := hheader header hline
    cases h with
    | same =>
      rw [addLine_other hline hother hprevious]
      exact .closed (fun hc => hfree (hr'.current hc)) hprevious
    | assigned id hcurrent hpending hawaited =>
      simp [hfree (hr'.current hcurrent)] at hawaited
    | closed hidle hprevious =>
      rw [addLine_other hline hother (by simp), closeNode_of_pending (by simp)]
      exact .closed hidle hprevious
  | none =>
    have hadd : ∀ r : Reading, r.addLine scriptExtension line = r.addBodyLine line := by
      intro r
      rw [addLine, hline]
    rw [hadd]
    cases hid : scriptOfLine? line with
    | none =>
      have hidle : ∀ r : Reading, r.addBodyLine line = r := by
        intro r
        simp [addBodyLine, hid]
      rwa [hidle]
    | some id =>
      cases h with
      | same =>
        by_cases hcurrent : r.current = .node
        · have hawaited : awaited = true := by
            by_contra hfree
            rw [hscript (hr'.current hcurrent) (by simpa using hfree)] at hid
            cases hid
          cases hpending : r.pending with
          | none =>
            have hline : r.addBodyLine line = r := by simp [addBodyLine, hpending]
            rw [hline]
            exact .same r
          | some node =>
            have hline : r.addBodyLine line =
                { r with pending := some (node.1, node.2.withProperty scriptKey id) } := by
              simp [addBodyLine, hcurrent, hpending, hid]
            rw [hline]
            exact .assigned id hcurrent hpending hawaited
        · rw [addBodyLine_idle hcurrent]
          exact .same r
      | @assigned _ place tag id' hcurrent hpending hawaited =>
        have hline : addBodyLine line
            { r' with pending := some (place, tag.withProperty scriptKey id') } =
            { r' with pending := some (place, tag.withProperty scriptKey id) } := by
          simp [addBodyLine, hcurrent, hid, withProperty_withProperty]
        rw [hline]
        exact .assigned id hcurrent hpending hawaited
      | closed hidle hprevious =>
        rw [addBodyLine_idle (by simp)]
        exact .closed hidle hprevious

theorem Trails.textLines (h : Trails awaited r r') (hr' : InSection kind r') (hbody : InBody kind)
    {lines : List String}
    (hheader : ∀ line ∈ lines, ∀ h, Header.ofLine (Text.trim line) = some h →
      TagKind.ofHeader h.kind = .other ∧ (kind = .node → awaited = false))
    (hscript : ∀ line ∈ lines, kind = .node → awaited = false →
      scriptOfLine? (Text.trim line) = none) (rest : List String) :
    ∃ r'', Trails awaited r'' r' ∧ r.addSaid scriptExtension (said lines ++ rest) =
      r''.addSaid scriptExtension rest := by
  induction lines generalizing r with
  | nil => exact ⟨r, h, rfl⟩
  | cons line lines ih =>
    have hheader' := fun l hl => hheader l (List.mem_cons_of_mem _ hl)
    have hscript' := fun l hl => hscript l (List.mem_cons_of_mem _ hl)
    by_cases hignored : isIgnored (Text.trim line) = true
    · have hsaid : said (line :: lines) = said lines := by simp [said, hignored]
      rw [hsaid]
      exact ih h hheader' hscript'
    · have hsaid : said (line :: lines) = Text.trim line :: said lines := by simp [said, hignored]
      have hline : Trails awaited (r.addLine scriptExtension (Text.trim line)) r' :=
        h.textLine hr' hbody (hheader line List.mem_cons_self) (hscript line List.mem_cons_self)
      obtain ⟨r'', htrails, hread⟩ := ih hline hheader' hscript'
      refine ⟨r'', htrails, ?_⟩
      rw [hsaid, List.cons_append, addSaid, hline.kept hr'.kept]
      exact hread

/-- The whole property leaves readings close together. -/
theorem Trails.long (h : Trails awaited r r') (hr' : InSection kind r') (hbody : InBody kind)
    {p : LongProperty} (hp : p.Inert kind awaited) (rest : List String) :
    ∃ r'', Trails awaited r'' r' ∧ r.addSaid scriptExtension (said p.lines ++ rest) =
      r''.addSaid scriptExtension rest := by
  refine h.textLines hr' hbody (fun line hline => ?_) (fun line hline => ?_) rest
  · rcases List.mem_cons.mp hline with rfl | hmore
    · obtain ⟨c, cs, hkey, hblank, hbracket, -⟩ := p.first
      obtain ⟨tail, htail⟩ := trim_property p.toProperty
      rw [hkey] at htail
      rw [Header.ofLine_eq_none htail hblank hbracket]
      simp
    · exact hp.header line hmore
  · rcases List.mem_cons.mp hline with rfl | hmore
    · exact fun _ _ => scriptOfLine?_property p.notScript
    · exact hp.script line hmore

/-- At a header both readings become the same again. -/
theorem Trails.headerLine (h : Trails false r r') {line : String} {header : Header}
    (hline : Header.ofLine line = some header) :
    r.addLine scriptExtension line = r'.addLine scriptExtension line := by
  cases h with
  | same => rfl
  | assigned id hcurrent hpending hawaited => cases hawaited
  | closed hidle hprevious =>
    rw [addLine_header hline (by simp), addLine_header hline hprevious,
      closeNode_of_pending (by simp)]
    rfl

/-- A line of the body keeps readings close together. -/
theorem Trails.bodyLine {line : String} (hline : Header.ofLine line = none)
    (h : Trails ((scriptOfLine? line).isSome || awaited) r r') :
    Trails awaited (r.addLine scriptExtension line) (r'.addLine scriptExtension line) := by
  have hadd (r : Reading) : r.addLine scriptExtension line = r.addBodyLine line := by
    rw [addLine, hline]
  rw [hadd, hadd]
  cases hid : scriptOfLine? line with
  | none =>
    have hidle (r : Reading) : r.addBodyLine line = r := by simp [addBodyLine, hid]
    rw [hidle, hidle]
    rwa [hid, Option.isSome_none, Bool.false_or] at h
  | some id =>
    cases h with
    | same => exact .same _
    | @assigned _ place tag id' hcurrent hpending _ =>
      have hsame : addBodyLine line
          { r' with pending := some (place, tag.withProperty scriptKey id') } =
          r'.addBodyLine line := by
        simp [addBodyLine, hcurrent, hpending, hid, withProperty_withProperty]
      rw [hsame]
      exact .same _
    | closed hidle hprevious =>
      have hnode : r'.current ≠ .node :=
        fun hcurrent => by simp [hid] at hidle; exact hidle hcurrent
      rw [addBodyLine_idle (by simp), addBodyLine_idle hnode]
      exact .closed (fun hcurrent => absurd hcurrent hnode) hprevious

theorem addHeader_previous (h : Header) (r : Reading) :
    (r.addHeader scriptExtension h).previous = some (TagKind.ofHeader h.kind) := by
  unfold addHeader
  cases hkind : TagKind.ofHeader h.kind with
  | extResource => exact addResource_previous _ _
  | node =>
    dsimp only [openNode]
    split <;> [rfl; split <;> rfl]
  | connection => exact addConnection_previous _ _
  | other => rfl

theorem addHeader_current (h : Header) (r : Reading) :
    (r.addHeader scriptExtension h).current = .node → TagKind.ofHeader h.kind = .node := by
  unfold addHeader
  cases hkind : TagKind.ofHeader h.kind with
  | extResource => dsimp only [addResource]; split <;> [simp; split <;> simp]
  | node => simp
  | connection =>
    dsimp only [addConnection]
    split <;> [split <;> [simp; split <;> simp]; simp]
  | other => simp

theorem InSection.header {line : String} {h : Header} (hline : Header.ofLine line = some h)
    (hkept : (r.addLine scriptExtension line).abandoned = false) :
    InSection (TagKind.ofHeader h.kind) (r.addLine scriptExtension line) := by
  have hadd : r.addLine scriptExtension line = r.closeNode.addHeader scriptExtension h := by
    simp only [addLine, hline] at hkept ⊢
    split at hkept
    · cases hkept
    · next hopen => rw [if_neg hopen]
  rw [hadd] at hkept ⊢
  refine ⟨addHeader_current h _, fun hp => ?_, hkept⟩
  rw [addHeader_previous] at hp
  exact Option.some.inj hp

theorem InSection.body (hr : InSection kind r) {line : String}
    (hline : Header.ofLine line = none) : InSection kind (r.addLine scriptExtension line) := by
  rw [addLine, hline]
  dsimp only [addBodyLine]
  split
  · exact ⟨hr.current, hr.previous, hr.kept⟩
  · exact hr

/-- Where nothing more is read, the difference is gone. -/
theorem Trails.asset (h : Trails false r r') (path : String) :
    r.closeNode.asset? path = r'.closeNode.asset? path := by
  cases h with
  | same => rfl
  | assigned id hcurrent hpending hawaited => cases hawaited
  | closed hidle hprevious =>
    rw [closeNode_of_pending (by simp)]
    rfl

theorem Trails.pieces {pieces : List Piece} (h : Trails (scriptFollows pieces) r r')
    (hr' : InSection kind r')
    (hlong : ∀ front p back, pieces = front ++ .long p :: back →
      InBody (sectionAfter kind front) ∧ p.Inert (sectionAfter kind front) (scriptFollows back))
    (path : String) :
    (r.addSaid scriptExtension (said (writtenLines pieces))).asset? path =
      (r'.addSaid scriptExtension (said (shortLines pieces))).asset? path := by
  induction pieces generalizing kind r r' with
  | nil => exact h.asset path
  | cons piece rest ih =>
    cases piece with
    | long p =>
      obtain ⟨hbody, hinert⟩ := hlong [] p rest rfl
      rw [scriptFollows_long] at h
      rw [writtenLines_long, shortLines_long, said_append]
      obtain ⟨r'', htrails, hread⟩ := h.long hr' hbody hinert (said (writtenLines rest))
      rw [hread]
      exact ih htrails hr' fun front q back hrest =>
        hlong (.long p :: front) q back (by rw [hrest]; rfl)
    | line text =>
      rw [writtenLines_line, shortLines_line, said_cons, said_cons]
      have hlong' : ∀ front p back, rest = front ++ .long p :: back →
          InBody (sectionAfter kind (.line text :: front)) ∧
            p.Inert (sectionAfter kind (.line text :: front)) (scriptFollows back) :=
        fun front q back hrest => hlong (.line text :: front) q back (by rw [hrest]; rfl)
      by_cases hignored : isIgnored (Text.trim text) = true
      · rw [if_pos hignored, if_pos hignored]
        rw [scriptFollows_ignored hignored] at h
        refine ih h hr' fun front q back hrest => ?_
        rw [← sectionAfter_ignored kind hignored]
        exact hlong' front q back hrest
      · have hsays : isIgnored (Text.trim text) = false := by simpa using hignored
        rw [if_neg hignored, if_neg hignored, addSaid, addSaid]
        cases hline : Header.ofLine (Text.trim text) with
        | some header =>
          rw [scriptFollows_header hsays hline] at h
          rw [h.headerLine hline]
          by_cases hleft : (r'.addLine scriptExtension (Text.trim text)).abandoned = true
          · simp [hleft]
          · have hkept : (r'.addLine scriptExtension (Text.trim text)).abandoned = false := by
              simpa using hleft
            simp only [hkept, Bool.false_eq_true, if_false]
            refine ih (.same _) (.header hline hkept) fun front q back hrest => ?_
            rw [← sectionAfter_header kind hsays hline]
            exact hlong' front q back hrest
        | none =>
          rw [scriptFollows_body hsays hline] at h
          have htrails : Trails _ (r.addLine scriptExtension (Text.trim text))
              (r'.addLine scriptExtension (Text.trim text)) := h.bodyLine hline
          have hsection : InSection kind (r'.addLine scriptExtension (Text.trim text)) :=
            hr'.body hline
          simp only [hsection.kept, htrails.kept hsection.kept, Bool.false_eq_true, if_false]
          refine ih htrails hsection fun front q back hrest => ?_
          rw [← sectionAfter_body kind hline]
          exact hlong' front q back hrest

end

end Reading

/-- Texts over several lines in the bodies of nodes and sections are inert unless one of their lines
is taken for what it is not. -/
theorem parse_writtenLines (scriptExtension path : String) {pieces : List Piece}
    (hbody : ∀ front p back, pieces = front ++ .long p :: back →
      InBody (sectionAfter .other front))
    (hinert : ∀ front p back, pieces = front ++ .long p :: back →
      p.Inert (sectionAfter .other front) (scriptFollows back)) :
    parse scriptExtension path (writtenLines pieces) =
      parse scriptExtension path (shortLines pieces) := by
  rw [parse, parse, Reading.ofLines, Reading.ofLines, Reading.addLines_eq, Reading.addLines_eq]
  exact (Reading.Trails.same _).pieces ⟨by simp, by simp, rfl⟩
    (fun front p back h => ⟨hbody front p back h, hinert front p back h⟩) path

/-- A rich text with a tag on a line of its own. -/
def greeting : LongProperty where
  key := "text"
  value := "\"Hello"
  first := ⟨'t', ['e', 'x', 't'], by decide, by decide, by decide, by decide⟩
  last c hc := by
    obtain rfl : 't' = c := by simpa using hc
    decide
  equals := by decide
  more := ["[b]", "world\""]
  notScript := by decide
  spans := by simp
  opened := by decide
  closed := by decide

def labelHead : List Piece :=
  [.line "[ext_resource path=\"res://Menu.cs\" id=\"1\"]", .line "[node name=\"Menu\"]"]

def labelScript : Piece := .line "script = ExtResource(\"1\")"

def labelConnection : Piece := .line "[connection to=\".\" method=\"OnPressed\"]"

def greetingAfter : List Piece := labelHead ++ [labelScript, .long greeting, labelConnection]

def greetingBefore : List Piece := labelHead ++ [.long greeting, labelScript, labelConnection]

theorem greetingAfter_split {front back : List Piece} {p : LongProperty}
    (h : greetingAfter = front ++ .long p :: back) :
    front = labelHead ++ [labelScript] ∧ p = greeting ∧ back = [labelConnection] := by
  rcases front with _ | ⟨a, _ | ⟨b, _ | ⟨c, _ | ⟨d, _ | ⟨e, front⟩⟩⟩⟩⟩
  · cases h
  · cases h
  · cases h
  · cases h
    exact ⟨rfl, rfl, rfl⟩
  · cases h
  · have hlength := congrArg List.length h
    simp [greetingAfter, labelHead] at hlength

theorem parse_writtenLines_greetingAfter :
    parse ".cs" "Menu.tscn" (writtenLines greetingAfter) =
      parse ".cs" "Menu.tscn" (shortLines greetingAfter) := by
  refine parse_writtenLines ".cs" "Menu.tscn" (fun front p back h => ?_) (fun front p back h => ?_)
  · obtain ⟨rfl, -, -⟩ := greetingAfter_split h
    exact .inl (by decide +kernel)
  · obtain ⟨rfl, rfl, rfl⟩ := greetingAfter_split h
    have hlines : ∀ line ∈ greeting.more, Reading.scriptOfLine? (Text.trim line) = none ∧
        ((Header.ofLine (Text.trim line)).map fun h => TagKind.ofHeader h.kind).getD .other =
          .other := by
      decide +kernel
    have hlast : scriptFollows [labelConnection] = false := by decide +kernel
    refine ⟨fun line hline header hheader => ⟨?_, fun _ => hlast⟩,
      fun line hline _ _ => (hlines line hline).1⟩
    have hother := (hlines line hline).2
    rwa [hheader] at hother

/-- Before the script, the tag ends the body of its node, and the connection is lost. -/
theorem greetingBefore_not_inert :
    (parse ".cs" "Menu.tscn" (shortLines greetingBefore)).map
        (fun asset => asset.connections.map fun c => c.2.method) = some ["OnPressed"] ∧
      parse ".cs" "Menu.tscn" (writtenLines greetingBefore) = none := by
  decide +kernel

end SceneCodegen.Scene
