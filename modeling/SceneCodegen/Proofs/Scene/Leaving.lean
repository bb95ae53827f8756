import SceneCodegen.Proofs.Scene.Passages

/-!
# Leaving scenes

A scene whose resources ended without a script is left at the header after them. No connection was
retained up to there, as none is without a registered script. Where the headers of resources stand
together none is retained after it either, so a parser that never leaves a scene comes to the same.
-/
namespace SceneCodegen.Scene

namespace Reading

/-- Takes in a trimmed line that says something, whatever it shows of the scripts of the scene. -/
def stayLine (scriptExtension trimmed : String) (r : Reading) : Reading :=
  match Header.ofLine trimmed with
  | none => r.addBodyLine trimmed
  | some h => r.closeNode.addHeader scriptExtension h

/-- Takes in all lines up to the end. -/
def stayLines (scriptExtension : String) : List String → Reading → Reading
  | [], r => r.closeNode
  | line :: rest, r =>
    let trimmed := Text.trim line
    if isIgnored trimmed then r.stayLines scriptExtension rest
    else (r.stayLine scriptExtension trimmed).stayLines scriptExtension rest

end Reading

/-- Parses a scene without ever leaving it. -/
def stayParse (scriptExtension path : String) (lines : List String) : Option Asset :=
  (({} : Reading).stayLines scriptExtension lines).asset? path

/-- The kinds of the headers among some lines, in order. -/
def headerKinds (lines : List String) : List TagKind :=
  (said lines).filterMap fun line => (Header.ofLine line).map fun h => TagKind.ofHeader h.kind

/-- Between two headers of resources there are headers of resources only. -/
def ResourcesTogether (kinds : List TagKind) : Prop :=
  ∀ kind, [.extResource, kind, .extResource].Sublist kinds → kind = .extResource

theorem headerKinds_eq (lines : List String) :
    headerKinds lines = (passages (said lines)).map Passage.kind := by
  unfold headerKinds
  generalize said lines = ls
  induction ls with
  | nil => rfl
  | cons line rest ih =>
    cases hline : Header.ofLine line with
    | none => simpa [passages, hline] using ih
    | some h => simpa [passages, hline, Passage.kind] using ih

namespace Reading

/-- Takes in passages up to the end. -/
def stayPassages (scriptExtension : String) (ps : List Passage) (r : Reading) : Reading :=
  (ps.foldl (fun r p => (r.closeNode.addHeader scriptExtension p.header).addBody p.body)
    r).closeNode

theorem stayLines_eq (scriptExtension : String) (lines : List String) (r : Reading) :
    r.stayLines scriptExtension lines =
      ((said lines).foldl (fun r line => r.stayLine scriptExtension line) r).closeNode := by
  induction lines generalizing r with
  | nil => rfl
  | cons line rest ih =>
    by_cases hignored : isIgnored (Text.trim line) = true
    · simp [stayLines, said, hignored, ih]
    · simp [stayLines, said, hignored, ih]

/-- Lines are read passage by passage, after those that belong to none. -/
theorem foldl_stayLine_eq (scriptExtension : String) (lines : List String) (r : Reading) :
    (lines.foldl (fun r line => r.stayLine scriptExtension line) r).closeNode =
      (r.addBody (lines.takeWhile fun l => !isHeader l)).stayPassages scriptExtension
        (passages lines) := by
  induction lines generalizing r with
  | nil => rfl
  | cons line rest ih =>
    rw [List.foldl_cons, ih, stayLine]
    cases hline : Header.ofLine line with
    | none => simp [passages, hline, isHeader, addBody]
    | some h => simp [passages, hline, isHeader, addBody, stayPassages]

end Reading

namespace Passage
variable {scriptExtension : String} {before : List Passage}

/-- Without a registered script no connection is retained. -/
theorem retained?_eq_none (h : ∀ q ∈ before, q.registers? scriptExtension = none) (p : Passage) :
    p.retained? scriptExtension before = none := by
  unfold retained?
  split
  · rw [Option.map_eq_none_iff, Option.eq_none_iff_forall_ne_some]
    intro x hx
    obtain ⟨_, _, id, -, -, -, hlatest⟩ := leadsTo_eq_some hx
    obtain ⟨hmem, hregisters⟩ := mem_of_latest? hlatest
    simp [h x hmem] at hregisters
  · rfl

theorem registers?_eq_none {p : Passage} (h : p.kind ≠ .extResource) :
    p.registers? scriptExtension = none := by
  rw [registers?, if_neg fun hp => h hp.1]

/-- After a passage at which a scene is left, nothing is registered. -/
theorem Leaves.registers {p : Passage} {after : List Passage}
    (h : p.Leaves scriptExtension before)
    (htogether : ResourcesTogether ((before ++ p :: after).map kind)) :
    ∀ q ∈ before ++ p :: after, q.registers? scriptExtension = none := by
  obtain ⟨hlast, hkind, hnone⟩ := h
  intro q hq
  rcases List.mem_append.mp hq with hq | hq
  · exact hnone q hq
  · refine registers?_eq_none fun hresource => hkind (htogether p.kind ?_)
    have hrest : q ∈ after := by
      rcases List.mem_cons.mp hq with rfl | hq
      · exact absurd hresource hkind
      · exact hq
    have hfront : [TagKind.extResource].Sublist (before.map kind) := by
      rw [List.singleton_sublist]
      exact List.mem_of_getLast? (by rw [List.getLast?_map, hlast])
    have hback : [TagKind.extResource].Sublist (after.map kind) := by
      rw [List.singleton_sublist, ← hresource]
      exact List.mem_map_of_mem hrest
    rw [List.map_append, List.map_cons]
    exact hfront.append (hback.cons_cons p.kind)

end Passage

namespace Reading
variable {scriptExtension : String} {before : List Passage} {connections : List Tag} {r : Reading}

/-- As long as nothing is registered, nothing is retained. -/
theorem connectionTags_stayPassages (h : Tells scriptExtension before [] r) {after : List Passage}
    (hnone : ∀ q ∈ before ++ after, q.registers? scriptExtension = none) :
    (r.stayPassages scriptExtension after).connectionTags = [] := by
  induction after generalizing before r with
  | nil => exact h.connection
  | cons p rest ih =>
    have hretained := Passage.retained?_eq_none
      (fun q hq => hnone q (List.mem_append_left _ hq)) p
    have hstep := h.step p
    rw [hretained] at hstep
    exact ih hstep (by simpa using hnone)

theorem asset?_eq_none (h : r.connectionTags = []) (path : String) : r.asset? path = none := by
  have hany : (r.tags.any (·.kind == .connection)) = false := by
    rw [List.any_eq_false]
    exact List.filter_eq_nil_iff.mp h
  simp [asset?, hany]

/-- Passages are read to the same asset whether the scene may be left or not. -/
theorem asset?_addPassages (h : Tells scriptExtension before connections r)
    (hbare : (∀ q ∈ before, q.registers? scriptExtension = none) → connections = [])
    {after : List Passage} (htogether : ResourcesTogether ((before ++ after).map Passage.kind))
    (path : String) :
    (r.addPassages scriptExtension after).asset? path =
      (r.stayPassages scriptExtension after).asset? path := by
  induction after generalizing before connections r with
  | nil => rfl
  | cons p rest ih =>
    rw [addPassages]
    by_cases hleft : r.showsNoScript p.kind = true
    · have hleaves := (h.showsNoScript_iff p).mp hleft
      obtain rfl := hbare hleaves.2.2
      have hstayed := connectionTags_stayPassages h (hleaves.registers htogether)
      rw [if_pos hleft, asset?_eq_none hstayed]
      simp [asset?]
    · rw [if_neg hleft]
      refine ih (h.step p) (fun hnone => ?_) (by simpa using htogether)
      -- A passage retains nothing either as long as no script is registered before it.
      have hbefore := fun q hq => hnone q (List.mem_append_left _ hq)
      rw [hbare hbefore, Passage.retained?_eq_none hbefore]
      rfl

end Reading

/-- Leaving a scene early loses nothing of it, whatever its lines, as long as the headers of its
resources stand together. -/
theorem parse_eq_stayParse (scriptExtension path : String) {lines : List String}
    (h : ResourcesTogether (headerKinds lines)) :
    parse scriptExtension path lines = stayParse scriptExtension path lines := by
  have hstart : Reading.Tells scriptExtension [] [] ({} : Reading) :=
    ⟨fun _ => rfl, fun _ => rfl, rfl, rfl⟩
  rw [headerKinds_eq] at h
  rw [parse, stayParse, ofLines_eq, Reading.stayLines_eq, Reading.foldl_stayLine_eq,
    Reading.addBody_idle (by simp)]
  exact Reading.asset?_addPassages hstart (fun _ => rfl) h path

/-- A scene whose only resource is a picture, which is left at its node. -/
def pictureOnly : List String := menu "[ext_resource path=\"res://icon.png\" id=\"1\"]"

theorem parse_eq_stayParse_pictureOnly : ResourcesTogether (headerKinds pictureOnly) ∧
    (Reading.ofLines ".cs" pictureOnly).abandoned = true ∧
    parse ".cs" "Menu.tscn" pictureOnly = stayParse ".cs" "Menu.tscn" pictureOnly := by
  have hpassages : passages (said pictureOnly) =
      [⟨⟨"ext_resource", [("path", "res://icon.png"), ("id", "1")]⟩, []⟩, menuNode, menuWire] := by
    have hpicture : pictureOnly = menu (headerLine "ext_resource"
        [.quoted "path" "res://icon.png", .quoted "id" "1"]) := rfl
    rw [hpicture, passages_menu]
    rfl
  have htogether : ResourcesTogether (headerKinds pictureOnly) := by
    rw [headerKinds_eq, hpassages]
    intro kind
    cases kind <;> decide
  refine ⟨htogether, ?_, parse_eq_stayParse ".cs" "Menu.tscn" htogether⟩
  rw [ofLines_eq, hpassages]
  decide

/-- A script that is registered only after a header of another kind is lost where a
scene is left. -/
example :
    let lines := ["[ext_resource path=a id=0]", "[s]", "[ext_resource path=b.cs id=1]",
      "[node name=M]", "script=ExtResource(1)", "[connection to=. method=P]"]
    parse ".cs" "M" lines = none ∧ (stayParse ".cs" "M" lines).isSome := by
  decide +kernel

end SceneCodegen.Scene
