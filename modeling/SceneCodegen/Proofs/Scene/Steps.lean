import SceneCodegen.Proofs.Scene.Places

/-!
# Reading written lines

What a reading makes of each kind of written line. A header closes the node before it and is taken
in, unless it shows that the scene has no script. A property changes nothing but the line that gives
a node its script. Lines are said one after the other: what a list of them leads to is put together
from what its parts lead to.
-/
namespace SceneCodegen.Scene

theorem toList_trim (line : String) :
    (Text.trim line).toList = Text.trimBoth Text.isBlank line.toList :=
  String.toList_ofList

theorem trim_headerLine (kind : String) (attributes : List Attribute) :
    Text.trim (headerLine kind attributes) = headerLine kind attributes := by
  rw [Text.trim, headerLine, String.toList_ofList, trim_bracketed]

/-- A trimmed property still begins with its key and its equals sign. -/
theorem trim_property (p : Property) :
    ∃ tail, (Text.trim p.line).toList = p.key.toList ++ ' ' :: '=' :: tail := by
  obtain ⟨c, rest, hkey, hblank, -⟩ := p.first
  have hline : p.line.toList = (p.key.toList ++ [' ', '=']) ++ ' ' :: p.value.toList := by
    simp [Property.line]
  refine ⟨Text.trimEndChars Text.isBlank (' ' :: p.value.toList), ?_⟩
  rw [toList_trim, hline, Text.trimBoth_append (by simp)]
  · simp
  · intro d hd
    obtain rfl : c = d := by simpa [hkey] using hd
    exact hblank
  · intro d hd
    obtain rfl : '=' = d := by simpa [List.getLast?_append] using hd
    decide

theorem Header.ofLine_eq_none {line : String} {c : Char} {cs : List Char}
    (hline : line.toList = c :: cs) (hblank : Text.isBlank c = false) (hc : c ≠ '[') :
    Header.ofLine line = none := by
  have hhead := Text.head_trimBoth hblank cs
  rw [Header.ofLine, hline]
  split
  · next h => rw [h] at hhead; exact absurd (Option.some.inj hhead).symm hc
  · rfl

theorem isIgnored_eq_false {line : String} {c : Char} {cs : List Char}
    (hline : line.toList = c :: cs) (hc : c ≠ ';') : Reading.isIgnored line = false := by
  have hne : line ≠ "" := by rintro rfl; cases hline
  have hprefix : Text.hasPrefix ";" line = false := by
    rw [Text.hasPrefix, hline]
    simp [List.isPrefixOf, Ne.symm hc]
  simp [Reading.isIgnored, hne, hprefix]

theorem isIgnored_headerLine (kind : String) (attributes : List Attribute) :
    Reading.isIgnored (headerLine kind attributes) = false :=
  isIgnored_eq_false (c := '[') (String.toList_ofList) (by decide)

theorem scriptOfLine?_of_cut {line : String} {front after : List Char}
    (hcut : Text.cutAt '=' line.toList = some (front, after))
    (hkey : Text.trimBoth Text.isBlank front ≠ scriptKey.toList) :
    Reading.scriptOfLine? line = none := by
  have hne : Text.trim (String.ofList front) ≠ scriptKey := by
    intro h
    rw [← h, toList_trim, String.toList_ofList] at hkey
    exact hkey rfl
  simp [Reading.scriptOfLine?, hcut, hne]

/-- A line that begins with a quote gives no script, wherever its equals sign stands. -/
theorem scriptOfLine?_of_quote {line : String} {cs : List Char} (hline : line.toList = '"' :: cs) :
    Reading.scriptOfLine? line = none := by
  have hne : '"' ≠ '=' := by decide
  have hcut := Text.cutAt_cons hne cs
  cases h : Text.cutAt '=' cs with
  | none =>
    rw [h, ← hline] at hcut
    rw [Reading.scriptOfLine?, hcut]
    rfl
  | some cut =>
    rw [h, ← hline] at hcut
    refine scriptOfLine?_of_cut hcut fun htrim => ?_
    have hhead := Text.head_trimBoth (p := Text.isBlank) (c := '"') (by decide) cut.1
    rw [htrim] at hhead
    cases hhead

theorem trim_key (p : Property) :
    Text.trimBoth Text.isBlank (p.key.toList ++ [' ']) = p.key.toList := by
  obtain ⟨c, rest, hkey, hblank, -⟩ := p.first
  rw [Text.trimBoth_append_cut _ (by simp; decide), Text.trimBoth_of_ends _ p.last]
  intro d hd
  obtain rfl : c = d := by simpa [hkey] using hd
  exact hblank

theorem scriptOfLine?_property {p : Property} (hp : p.key ≠ scriptKey) :
    Reading.scriptOfLine? (Text.trim p.line) = none := by
  obtain ⟨tail, htail⟩ := trim_property p
  by_cases hequals : '=' ∈ p.key.toList
  · obtain ⟨rest, hkey⟩ := List.head?_eq_some_iff.mp (p.equals hequals)
    rw [hkey] at htail
    exact scriptOfLine?_of_quote htail
  · have hfront : '=' ∉ p.key.toList ++ [' '] := by simpa using hequals
    have hcut := Text.cutAt_append hfront tail
    rw [List.append_assoc, List.singleton_append, ← htail] at hcut
    refine scriptOfLine?_of_cut hcut fun htrim => ?_
    rw [trim_key] at htrim
    exact hp (String.toList_injective htrim)

def referenceOpening : List Char := ['E', 'x', 't', 'R', 'e', 's', 'o', 'u', 'r', 'c', 'e', '(']

/-- The reference to a resource in the value of a script line. -/
def reference (id : ResourceId) : List Char :=
  referenceOpening ++ '"' :: (id.text.toList ++ ['"', ')'])

theorem toList_referenceOpening : "ExtResource(".toList = referenceOpening := by
  simp [referenceOpening]

theorem toList_scriptKey : scriptKey.toList = ['s', 'c', 'r', 'i', 'p', 't'] := by
  simp [scriptKey]

theorem getLast?_reference (id : ResourceId) (front : List Char) :
    (front ++ reference id).getLast? = some ')' := by
  have hend : front ++ reference id =
      (front ++ (referenceOpening ++ '"' :: (id.text.toList ++ ['"']))) ++ [')'] := by
    simp [reference]
  rw [hend, List.getLast?_concat]

theorem trim_reference (id : ResourceId) :
    Text.trimBoth Text.isBlank (' ' :: reference id) = reference id := by
  have hcut : Text.trimBoth Text.isBlank (' ' :: reference id) =
      Text.trimBoth Text.isBlank (reference id) := by
    rw [Text.trimBoth, List.dropWhile_cons_of_pos (by decide), Text.trimBoth]
  rw [hcut]
  apply Text.trimBoth_of_ends <;> intro c hc
  · obtain rfl : 'E' = c := by simpa [reference, referenceOpening] using hc
    decide
  · obtain rfl : ')' = c := by simpa using (getLast?_reference id []).symm.trans hc
    decide

theorem resourceReference_written (id : ResourceId) :
    resourceReference (String.ofList (' ' :: reference id)) = some id.text := by
  have hquote : '"' ∉ id.text.toList := fun h => (id.plain _ h).1 rfl
  have hopening : referenceOpening.isPrefixOf (reference id) = true := by
    rw [List.isPrefixOf_iff_prefix]
    exact List.prefix_append _ _
  have hinner : ((reference id).drop referenceOpening.length).dropWhile Text.isBlank =
      '"' :: (id.text.toList ++ '"' :: [')']) := by
    rw [reference, List.drop_left]
    exact Text.dropWhile_of_head (by simp; decide)
  have hclosed : isClosed [')'] = true := by decide
  simp only [resourceReference, String.toList_ofList, toList_referenceOpening, trim_reference,
    hopening, hinner, Text.cutAt_append hquote, hclosed]
  simp

theorem trim_scriptLine (id : ResourceId) :
    (Text.trim (scriptLine id)).toList = scriptKey.toList ++ [' '] ++
      '=' :: ' ' :: reference id := by
  have hline : (scriptLine id).toList = scriptKey.toList ++ [' '] ++
    '=' :: ' ' :: reference id := by
    simp [scriptLine, reference, referenceOpening]
  rw [toList_trim, hline]
  apply Text.trimBoth_of_ends <;> intro c hc
  · obtain rfl : 's' = c := by simpa [toList_scriptKey] using hc
    decide
  · have hlast := getLast?_reference id (scriptKey.toList ++ [' ', '=', ' '])
    simp only [List.append_assoc, List.cons_append, List.nil_append] at hc hlast
    obtain rfl : ')' = c := Option.some.inj (hlast.symm.trans hc)
    decide

theorem scriptOfLine?_script (id : ResourceId) :
    Reading.scriptOfLine? (Text.trim (scriptLine id)) = some id.text := by
  have hequals : '=' ∉ scriptKey.toList ++ [' '] := by simp [toList_scriptKey]
  have hcut : Text.cutAt '=' (Text.trim (scriptLine id)).toList =
      some (scriptKey.toList ++ [' '], ' ' :: reference id) := by
    rw [trim_scriptLine, Text.cutAt_append hequals]
  have hkey : Text.trim (String.ofList (scriptKey.toList ++ [' '])) = scriptKey := by
    rw [toList_scriptKey]
    decide
  simp only [Reading.scriptOfLine?, hcut, Option.bind_eq_bind, Option.bind_some, hkey,
    beq_self_eq_true,
    if_true]
  exact resourceReference_written id

theorem lookup_pairs_eq_none {attributes : List Attribute} {key : String}
    (h : ∀ a ∈ attributes, a.key ≠ key) : (attributes.map Attribute.pair).lookup key = none := by
  rw [List.lookup_eq_none_iff]
  rintro _ hp
  obtain ⟨a, ha, rfl⟩ := List.mem_map.mp hp
  exact bne_iff_ne.mpr (Ne.symm (h a ha))

theorem lookup_reverse_pairs_eq_none {attributes : List Attribute} {key : String}
    (h : ∀ a ∈ attributes, a.key ≠ key) :
    (attributes.map Attribute.pair).reverse.lookup key = none := by
  rw [← List.map_reverse]
  exact lookup_pairs_eq_none fun a ha => h a (List.mem_reverse.mp ha)

@[simp] theorem pair_quoted (key text : String) (filled : key ≠ "")
    (plain : key.toList.all isKeyChar = true) :
    (Attribute.quoted key text filled plain).pair = (key, text) :=
  rfl

namespace Resource
variable (x : Resource)

theorem others_ne (key : String) (hkey : key ∈ ["type", "path", "id"]) :
    ∀ a ∈ x.others, a.key ≠ key := by
  rintro a ha rfl
  exact x.others_keys a ha hkey

theorem lastValue?_id :
    Reading.lastValue? "id" (x.attributes.map Attribute.pair) = some x.id.text := by
  simp [Reading.lastValue?, attributes]

theorem lastValue?_path :
    Reading.lastValue? "path" (x.attributes.map Attribute.pair) = some x.path := by
  simp [Reading.lastValue?, attributes, List.lookup_cons]

theorem lookup_path : (x.attributes.map Attribute.pair).lookup "path" = some x.path := by
  have hothers := lookup_pairs_eq_none (x.others_ne "path" (by simp))
  simp [attributes, List.lookup_cons, List.lookup_append, hothers]

end Resource

namespace Placed
variable (n : Placed)

theorem others_ne (key : String) (hkey : key ∈ ["name", "parent", scriptKey]) :
    ∀ a ∈ n.entry.others, a.key ≠ key := by
  rintro a ha rfl
  exact n.entry.others_keys a ha hkey

theorem lastValue?_name :
    Reading.lastValue? "name" (n.attributes.map Attribute.pair) = some n.entry.name.text := by
  have hothers := lookup_reverse_pairs_eq_none (n.others_ne "name" (by simp))
  rcases n with ⟨_ | parent, entry⟩ <;> cases htype : entry.type <;>
    simp [Reading.lastValue?, attributes, htype, List.lookup_cons, List.lookup_append, hothers]

theorem lastValue?_parent :
    Reading.lastValue? "parent" (n.attributes.map Attribute.pair) = n.parent.map placeText := by
  have hothers := lookup_reverse_pairs_eq_none (n.others_ne "parent" (by simp))
  rcases n with ⟨_ | parent, entry⟩ <;> cases htype : entry.type <;>
    simp [Reading.lastValue?, attributes, htype, List.lookup_cons, List.lookup_append, hothers]

theorem lookup_script : (n.attributes.map Attribute.pair).lookup scriptKey = none := by
  refine lookup_pairs_eq_none fun a ha => ?_
  simp only [attributes, List.mem_cons, List.mem_append, Option.mem_toList,
    Option.map_eq_some_iff] at ha
  rcases ha with rfl | (⟨type, -, rfl⟩ | ⟨names, -, rfl⟩) | ha
  · simp [Attribute.quoted, scriptKey]
  · simp [Attribute.quoted, scriptKey]
  · simp [Attribute.quoted, scriptKey]
  · exact n.others_ne scriptKey (by simp) a ha

end Placed

namespace Wire
variable (w : Wire)

theorem others_ne (key : String)
    (hkey : key ∈ ["signal", "from", "to", "method", scriptPathKey]) :
    ∀ a ∈ w.others, a.key ≠ key := by
  rintro a ha rfl
  exact w.others_keys a ha hkey

theorem lastValue?_method :
    Reading.lastValue? "method" (w.attributes.map Attribute.pair) = some w.method := by
  have hothers := lookup_reverse_pairs_eq_none (w.others_ne "method" (by simp))
  simp [Reading.lastValue?, attributes, List.lookup_append, hothers]

theorem lastValue?_to :
    Reading.lastValue? "to" (w.attributes.map Attribute.pair) = some w.target := by
  have hothers := lookup_reverse_pairs_eq_none (w.others_ne "to" (by simp))
  simp [Reading.lastValue?, attributes, List.lookup_cons, List.lookup_append, hothers]

/-- No attribute of the connection stands where the path of its script will. -/
theorem filter_scriptPath : (w.attributes.map Attribute.pair).filter (·.1 != scriptPathKey) =
    w.attributes.map Attribute.pair := by
  rw [List.filter_eq_self]
  intro p hp
  obtain ⟨a, ha, rfl⟩ := List.mem_map.mp hp
  rw [bne_iff_ne]
  simp only [attributes, List.mem_cons] at ha
  rcases ha with rfl | rfl | rfl | rfl | ha
  · simp [scriptPathKey]
  · simp [scriptPathKey]
  · simp [scriptPathKey]
  · simp [scriptPathKey]
  · exact w.others_ne _ (by simp) a ha

end Wire

end SceneCodegen.Scene
