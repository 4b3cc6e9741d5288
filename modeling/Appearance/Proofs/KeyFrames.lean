import Appearance.Proofs.FrameCalls
import Appearance.Proofs.Measures
import Appearance.Sheet.Load

/-!
# The two notations of keyframes

Below the key `keyFrames` a keyframe is written as a call in a string or as a mapping. The two
readers have different numbers: a call has dimensions, which may have a unit, and a mapping has the
numbers of the document, which have none. They also differ in what they do not know: a call is
refused, and a mapping is read without it.

`Style.keyFrames_same_iff` says exactly for which lists of keyframes the two notations agree, and
that a call is never read without one of its fields. `Style.keyFrames_lostStart` is a keyframe whose
mapping loses a field.

Equality of keyframes is that of their numbers and not of their parts (`KeyFrame.Same`), since a
zero can lose its sign on one of the ways. The proof first varies the reader of numbers and keeps
the notation: readers that agree on the numbers of a description agree on it as a whole. Then it
compares each notation with `FrameSource.read` at its own reader. The list of keyframes below a key
needs every frame to be read, so a single difference makes the lists differ.
-/

namespace Appearance

open Appearance.Text
open Appearance.Yaml (Node)

/-! ## Equal keyframes -/

theorem Double.Same.symm {x y : Double} (h : x.Same y) : y.Same x := by
  rcases h with rfl | ⟨b, c, hx, hy⟩
  · exact .refl x
  · exact .inr ⟨c, b, hy, hx⟩

/-- Equal changes: numbers are compared as numbers. -/
structure AnimationValue.Same (v w : AnimationValue) : Prop where
  property_eq : v.property = w.property
  start : Option.Rel Double.Same v.start w.start
  finish : v.finish.Same w.finish

/-- Equal keyframes: numbers are compared as numbers. -/
structure KeyFrame.Same (k l : KeyFrame) : Prop where
  startTime : k.startTime.Same l.startTime
  duration : Option.Rel Double.Same k.duration l.duration
  values : List.Forall₂ AnimationValue.Same k.values l.values

/-! ## Readers with different numbers -/

namespace ChangeSource

variable {c : ChangeSource} {r r' : String → Option Double} {v w : AnimationValue}

/-- A change is read if its fields are, each by the reader of its kind. -/
theorem read_eq_some_iff : c.read r = some v ↔
    (∃ text, fieldOf "type" c = some text ∧ Animatable.ofName? text.1 = some v.property) ∧
      (∃ text, fieldOf "to" c = some text ∧ r text.1 = some v.finish) ∧
      v.start = (fieldOf "from" c).bind fun text => r text.1 := by
  obtain ⟨property, start, finish⟩ := v
  unfold read
  constructor
  · intro h
    obtain ⟨_, hproperty, h⟩ := Option.bind_eq_some_iff.1 h
    obtain ⟨_, hfinish, h⟩ := Option.bind_eq_some_iff.1 h
    cases h
    exact ⟨Option.bind_eq_some_iff.1 hproperty, Option.bind_eq_some_iff.1 hfinish, rfl⟩
  · rintro ⟨⟨name, hname, hproperty⟩, ⟨last, hlast, hfinish⟩, hstart⟩
    dsimp only at hproperty hfinish hstart
    simp only [hname, hlast, Option.bind_some, hproperty, hfinish, hstart]
    rfl

theorem numberText_of_fieldOf {label : String} {text : Word} (h : fieldOf label c = some text)
    (hlabel : label ∈ numberLabels) : c.NumberText text := by
  obtain ⟨f, hf, rfl, rfl⟩ := exists_mem_of_fieldOf h
  exact ⟨f, hf, hlabel, rfl⟩

/-- A reader that reads all numbers of a change reads the change if another one does. -/
theorem exists_read (h : c.read r = some v)
    (hreadable : ∀ text, c.NumberText text → (r' text.1).isSome = true) :
    ∃ w, c.read r' = some w := by
  obtain ⟨hname, ⟨last, hlast, -⟩, -⟩ := read_eq_some_iff.1 h
  obtain ⟨finish, hfinish⟩ :=
    Option.isSome_iff_exists.1 (hreadable last (numberText_of_fieldOf hlast (by decide)))
  exact ⟨⟨v.property, _, finish⟩, read_eq_some_iff.2 ⟨hname, ⟨last, hlast, hfinish⟩, rfl⟩⟩

/-- Readers that agree on the numbers of a change agree on the change. -/
theorem same_of_read (hv : c.read r = some v) (hw : c.read r' = some w)
    (h : ∀ text, c.NumberText text → Option.Rel Double.Same (r text.1) (r' text.1)) :
    v.Same w := by
  obtain ⟨⟨name, hname, hproperty⟩, ⟨last, hlast, hfinish⟩, hstart⟩ := read_eq_some_iff.1 hv
  obtain ⟨⟨name', hname', hproperty'⟩, ⟨last', hlast', hfinish'⟩, hstart'⟩ := read_eq_some_iff.1 hw
  obtain rfl := Option.some.inj (hname.symm.trans hname')
  obtain rfl := Option.some.inj (hlast.symm.trans hlast')
  refine ⟨Option.some.inj (hproperty.symm.trans hproperty'), ?_, ?_⟩
  · rw [hstart, hstart']
    cases hfrom : fieldOf "from" c with
    | none => exact .none
    | some text => exact h text (numberText_of_fieldOf hfrom (by decide))
  · have hsame := h last (numberText_of_fieldOf hlast (by decide))
    rw [hfinish, hfinish'] at hsame
    cases hsame with
    | some hsame => exact hsame

/-- Equal changes have the same numbers read. -/
theorem isSome_of_same (hnodup : LabelsNodup c) (hv : c.read r = some v) (hw : c.read r' = some w)
    (hsame : v.Same w) (hreadable : ∀ text, c.NumberText text → (r text.1).isSome = true) :
    ∀ text, c.NumberText text → (r' text.1).isSome = true := by
  rintro text ⟨f, hf, hlabel, rfl⟩
  have hfield := fieldOf_of_mem hnodup hf
  have hnumber := hreadable f.2 ⟨f, hf, hlabel, rfl⟩
  obtain ⟨-, -, hstart⟩ := read_eq_some_iff.1 hv
  obtain ⟨-, ⟨last, hlast, hfinish⟩, hstart'⟩ := read_eq_some_iff.1 hw
  rcases mem_numberLabels.1 hlabel with hlabel | hlabel
  · rw [hlabel] at hfield
    have hrel := hsame.start
    rw [hstart, hstart', hfield, Option.bind_some, Option.bind_some] at hrel
    obtain ⟨x, hx⟩ := Option.isSome_iff_exists.1 hnumber
    rw [hx] at hrel
    generalize r' f.2.1 = y at hrel
    cases hrel
    rfl
  · rw [hlabel, hlast] at hfield
    rw [← Option.some.inj hfield, hfinish]
    rfl

end ChangeSource

/-- Fields with distinct labels are written as a mapping if each of them can be written. -/
theorem exists_mappingNode? {α : Type} {node? : α → Option Node} {fields : List (Word × α)}
    (hnodup : LabelsNodup fields) (h : ∀ f ∈ fields, ∃ n, node? f.2 = some n) :
    ∃ n, mappingNode? node? fields = some n := by
  obtain ⟨entries, hentries⟩ : ∃ entries, fields.mapM (fun f =>
      (node? f.2).map fun n => (Node.string f.1.1, n)) = some entries :=
    exists_mapM_of_forall_exists fun f hf => by
      obtain ⟨n, hn⟩ := h f hf
      exact ⟨_, by rw [hn, Option.map_some]⟩
  exact ⟨.mapping entries, by rw [mappingNode?, if_pos hnodup, hentries, Option.map_some]⟩

theorem exists_plainNode_of_number? {text : String}
    (h : (Yaml.Scalar.number? text).isSome = true) : ∃ n, Yaml.Scalar.plainNode text = some n := by
  obtain ⟨x, hx⟩ := Option.isSome_iff_exists.1 h
  obtain ⟨n, hn, -⟩ := Option.bind_eq_some_iff.1 hx
  exact ⟨n, hn⟩

namespace ChangeSource

/-- A change that is read, of known labels and numbers of the document, is a mapping. -/
theorem exists_node? {c : ChangeSource} {r : String → Option Double} {v : AnimationValue}
    (hknown : c.Known) (hnodup : LabelsNodup c) (hv : c.read r = some v)
    (hreadable : ∀ text, c.NumberText text → (Yaml.Scalar.number? text.1).isSome = true) :
    ∃ n, c.node? = some n := by
  refine exists_mappingNode? hnodup fun f hf => ?_
  have hfield := fieldOf_of_mem hnodup hf
  rcases List.mem_cons.1 (hknown f hf) with hlabel | hlabel
  · obtain ⟨⟨name, hname, hproperty⟩, -⟩ := read_eq_some_iff.1 hv
    rw [hlabel, hname] at hfield
    obtain ⟨n, hn, -⟩ := Option.bind_eq_some_iff.1 (Animatable.text?_name v.property)
    rw [← Option.some.inj hfield, Animatable.eq_name_of_ofName? hproperty]
    exact ⟨n, hn⟩
  · exact exists_plainNode_of_number? (hreadable f.2 ⟨f, hf, hlabel, rfl⟩)

end ChangeSource

namespace FrameField

variable {r : String → Option Double} {g : FrameField}

/-- A field is read as a number if it is a text that is one. -/
theorem number?_eq_some_iff {x : Double} :
    g.number? r = some x ↔ ∃ word, g = .text word ∧ r word.1 = some x := by
  cases g <;> simp [number?]

/-- A field is read as changes if it is a list of readable ones. -/
theorem changes?_eq_some_iff {vs : List AnimationValue} :
    g.changes? r = some vs ↔
      ∃ items, g = .changes items ∧ items.mapM (ChangeSource.read r) = some vs := by
  cases g <;> simp [changes?]

end FrameField

namespace FrameSource

variable {f : FrameSource} {r r' : String → Option Double} {k l : KeyFrame}

/-- A keyframe is read if its fields are, each by the reader of its kind. -/
theorem read_eq_some_iff : f.read r = some k ↔ ∃ start duration changes,
    (fieldOf "relativeStartTime" f).mapM (FrameField.number? r) = some start ∧
      (fieldOf "relativeDuration" f).mapM (FrameField.number? r) = some duration ∧
        (fieldOf "animationValues" f).mapM (FrameField.changes? r) = some changes ∧
          k = ⟨start.getD 0, duration, changes.getD []⟩ := by
  unfold read
  constructor
  · intro h
    obtain ⟨start, hstart, h⟩ := Option.bind_eq_some_iff.1 h
    obtain ⟨duration, hduration, h⟩ := Option.bind_eq_some_iff.1 h
    obtain ⟨changes, hchanges, h⟩ := Option.bind_eq_some_iff.1 h
    cases h
    exact ⟨start, duration, changes, hstart, hduration, hchanges, rfl⟩
  · rintro ⟨start, duration, changes, hstart, hduration, hchanges, rfl⟩
    rw [hstart, hduration, hchanges]
    rfl

theorem numberText_of_fieldOf {label : String} {word : Word}
    (h : fieldOf label f = some (.text word)) (hlabel : label ∈ numberLabels) :
    f.NumberText word := by
  obtain ⟨g, hg, rfl, hvalue⟩ := exists_mem_of_fieldOf h
  exact ⟨g, hg, by rw [hvalue]; exact ⟨hlabel, rfl⟩⟩

theorem numberText_of_changes {label : String} {items : List ChangeSource} {c : ChangeSource}
    {word : Word} (h : fieldOf label f = some (.changes items)) (hc : c ∈ items)
    (hword : c.NumberText word) : f.NumberText word := by
  obtain ⟨g, hg, -, hvalue⟩ := exists_mem_of_fieldOf h
  exact ⟨g, hg, by rw [hvalue]; exact ⟨c, hc, hword⟩⟩

/-- A number that is there is read by readers of all numbers. -/
theorem exists_mapM_number? {label : String} (hlabel : label ∈ numberLabels) {x : Option Double}
    (h : (fieldOf label f).mapM (FrameField.number? r) = some x)
    (hreadable : ∀ word, f.NumberText word → (r' word.1).isSome = true) :
    ∃ y, (fieldOf label f).mapM (FrameField.number? r') = some y := by
  cases hfield : fieldOf label f with
  | none => exact ⟨none, rfl⟩
  | some g =>
    rw [hfield, Option.mapM_some] at h
    obtain ⟨x, hx, -⟩ := Option.map_eq_some_iff.1 h
    obtain ⟨word, rfl, -⟩ := FrameField.number?_eq_some_iff.1 hx
    obtain ⟨y, hy⟩ := Option.isSome_iff_exists.1
      (hreadable word (numberText_of_fieldOf hfield hlabel))
    exact ⟨some y, by rw [Option.mapM_some, FrameField.number?, hy]; rfl⟩

/-- Changes that one reader reads are read by any other that reads their numbers. -/
theorem exists_mapM_changes? {label : String} {vs : Option (List AnimationValue)}
    (h : (fieldOf label f).mapM (FrameField.changes? r) = some vs)
    (hreadable : ∀ word, f.NumberText word → (r' word.1).isSome = true) :
    ∃ ws, (fieldOf label f).mapM (FrameField.changes? r') = some ws := by
  cases hfield : fieldOf label f with
  | none => exact ⟨none, rfl⟩
  | some g =>
    rw [hfield, Option.mapM_some] at h
    obtain ⟨vs, hvs, -⟩ := Option.map_eq_some_iff.1 h
    obtain ⟨items, rfl, hitems⟩ := FrameField.changes?_eq_some_iff.1 hvs
    obtain ⟨ws, hws⟩ : ∃ ws, items.mapM (ChangeSource.read r') = some ws :=
      exists_mapM_of_forall_exists fun c hc =>
        have ⟨v, hv⟩ := exists_of_mem_mapM hitems hc
        ChangeSource.exists_read hv fun text htext =>
          hreadable text (numberText_of_changes hfield hc htext)
    exact ⟨some ws, by rw [Option.mapM_some, FrameField.changes?, hws]; rfl⟩

/-- A reader that reads all numbers of a keyframe reads the keyframe if another one does. -/
theorem exists_read (h : f.read r = some k)
    (hreadable : ∀ word, f.NumberText word → (r' word.1).isSome = true) :
    ∃ l, f.read r' = some l := by
  obtain ⟨start, duration, changes, hstart, hduration, hchanges, -⟩ := read_eq_some_iff.1 h
  obtain ⟨start', hstart'⟩ := exists_mapM_number? (by decide) hstart hreadable
  obtain ⟨duration', hduration'⟩ := exists_mapM_number? (by decide) hduration hreadable
  obtain ⟨changes', hchanges'⟩ := exists_mapM_changes? hchanges hreadable
  exact ⟨_, read_eq_some_iff.2 ⟨_, _, _, hstart', hduration', hchanges', rfl⟩⟩

/-- Readers that agree on a number agree on whether it is there. -/
theorem same_of_mapM_number? {label : String} (hlabel : label ∈ numberLabels)
    {x y : Option Double} (hx : (fieldOf label f).mapM (FrameField.number? r) = some x)
    (hy : (fieldOf label f).mapM (FrameField.number? r') = some y)
    (h : ∀ word, f.NumberText word → Option.Rel Double.Same (r word.1) (r' word.1)) :
    Option.Rel Double.Same x y := by
  cases hfield : fieldOf label f with
  | none =>
    rw [hfield] at hx hy
    cases hx
    cases hy
    exact .none
  | some g =>
    rw [hfield, Option.mapM_some] at hx hy
    obtain ⟨a, ha, rfl⟩ := Option.map_eq_some_iff.1 hx
    obtain ⟨b, hb, rfl⟩ := Option.map_eq_some_iff.1 hy
    obtain ⟨word, rfl, hread⟩ := FrameField.number?_eq_some_iff.1 ha
    have hread' : r' word.1 = some b := hb
    have hsame := h word (numberText_of_fieldOf hfield hlabel)
    rwa [hread, hread'] at hsame

/-- Changes that two readers read are the same if the numbers are. -/
theorem same_of_mapM_changes? {label : String} {vs ws : Option (List AnimationValue)}
    (hvs : (fieldOf label f).mapM (FrameField.changes? r) = some vs)
    (hws : (fieldOf label f).mapM (FrameField.changes? r') = some ws)
    (h : ∀ word, f.NumberText word → Option.Rel Double.Same (r word.1) (r' word.1)) :
    List.Forall₂ AnimationValue.Same (vs.getD []) (ws.getD []) := by
  cases hfield : fieldOf label f with
  | none =>
    rw [hfield] at hvs hws
    cases hvs
    cases hws
    exact .nil
  | some g =>
    rw [hfield, Option.mapM_some] at hvs hws
    obtain ⟨as, has, rfl⟩ := Option.map_eq_some_iff.1 hvs
    obtain ⟨bs, hbs, rfl⟩ := Option.map_eq_some_iff.1 hws
    obtain ⟨items, rfl, hread⟩ := FrameField.changes?_eq_some_iff.1 has
    have hread' : items.mapM (ChangeSource.read r') = some bs := hbs
    exact forall₂_of_mapM_of_mapM hread hread' fun c hc v w hv hw =>
      ChangeSource.same_of_read hv hw fun text htext =>
        h text (numberText_of_changes hfield hc htext)

/-- Readers that agree on the numbers of a keyframe agree on the keyframe. -/
theorem same_of_read (hk : f.read r = some k) (hl : f.read r' = some l)
    (h : ∀ word, f.NumberText word → Option.Rel Double.Same (r word.1) (r' word.1)) :
    k.Same l := by
  obtain ⟨start, duration, changes, hstart, hduration, hchanges, rfl⟩ := read_eq_some_iff.1 hk
  obtain ⟨start', duration', changes', hstart', hduration', hchanges', rfl⟩ :=
    read_eq_some_iff.1 hl
  refine ⟨?_, same_of_mapM_number? (by decide) hduration hduration' h,
    same_of_mapM_changes? hchanges hchanges' h⟩
  cases same_of_mapM_number? (by decide) hstart hstart' h with
  | none => exact .refl _
  | some hsame => exact hsame

/-- Behind a label of a keyframe that is read stands what belongs there. -/
theorem label_of_read (hknown : f.Known) (hnodup : LabelsNodup f) (h : f.read r = some k)
    {g : Word × FrameField} (hg : g ∈ f) :
    (∃ word, g.2 = .text word ∧ g.1.1 ∈ numberLabels) ∨
      ∃ items, g.2 = .changes items ∧ g.1.1 = "animationValues" := by
  have hfield := fieldOf_of_mem hnodup hg
  obtain ⟨start, duration, changes, hstart, hduration, hchanges, -⟩ := read_eq_some_iff.1 h
  have hnumber : ∀ {x}, (fieldOf g.1.1 f).mapM (FrameField.number? r) = some x →
      ∃ word, g.2 = .text word := fun hx => by
    rw [hfield, Option.mapM_some] at hx
    obtain ⟨x, hx, -⟩ := Option.map_eq_some_iff.1 hx
    obtain ⟨word, hword, -⟩ := FrameField.number?_eq_some_iff.1 hx
    exact ⟨word, hword⟩
  rcases mem_labels.1 (hknown g hg).1 with hlabel | hlabel | hlabel
  · obtain ⟨word, hword⟩ := hnumber (hlabel ▸ hstart)
    exact .inl ⟨word, hword, by rw [hlabel]; decide⟩
  · obtain ⟨word, hword⟩ := hnumber (hlabel ▸ hduration)
    exact .inl ⟨word, hword, by rw [hlabel]; decide⟩
  · rw [← hlabel, hfield, Option.mapM_some] at hchanges
    obtain ⟨vs, hvs, -⟩ := Option.map_eq_some_iff.1 hchanges
    obtain ⟨items, hitems, -⟩ := FrameField.changes?_eq_some_iff.1 hvs
    exact .inr ⟨items, hitems, hlabel⟩

/-- The values of a keyframe are read from its changes. -/
theorem values_of_read (h : f.read r = some k) {items : List ChangeSource}
    (hfield : fieldOf "animationValues" f = some (.changes items)) :
    items.mapM (ChangeSource.read r) = some k.values := by
  obtain ⟨start, duration, changes, -, -, hchanges, rfl⟩ := read_eq_some_iff.1 h
  rw [hfield, Option.mapM_some] at hchanges
  obtain ⟨vs, hvs, rfl⟩ := Option.map_eq_some_iff.1 hchanges
  exact hvs

/-- A number that is read was readable. -/
theorem isSome_of_mapM_number? {label : String} {word : Word} {x : Option Double}
    (hfield : fieldOf label f = some (.text word))
    (hx : (fieldOf label f).mapM (FrameField.number? r) = some x) : (r word.1).isSome = true := by
  rw [hfield, Option.mapM_some] at hx
  obtain ⟨y, hy, -⟩ := Option.map_eq_some_iff.1 hx
  have hread : r word.1 = some y := hy
  rw [hread]
  rfl

/-- Equal keyframes have the same numbers read. -/
theorem isSome_of_same (hknown : f.Known) (hdistinct : f.Distinct) (hk : f.read r = some k)
    (hl : f.read r' = some l) (hsame : k.Same l)
    (hreadable : ∀ word, f.NumberText word → (r word.1).isSome = true) :
    ∀ word, f.NumberText word → (r' word.1).isSome = true := by
  rintro word ⟨g, hg, hword⟩
  have hfield := fieldOf_of_mem hdistinct.1 hg
  rcases label_of_read hknown hdistinct.1 hk hg with ⟨text, htext, hlabel⟩ | ⟨items, hitems, hlabel⟩
  · rw [htext] at hword hfield
    obtain ⟨-, rfl⟩ := hword
    obtain ⟨start, duration, -, hstart, hduration, -, -⟩ := read_eq_some_iff.1 hl
    rcases mem_numberLabels.1 hlabel with hlabel | hlabel
    · rw [hlabel] at hfield
      exact isSome_of_mapM_number? hfield hstart
    · rw [hlabel] at hfield
      exact isSome_of_mapM_number? hfield hduration
  · have hchanges := hdistinct.2 g hg
    rw [hitems] at hword hfield hchanges
    rw [hlabel] at hfield
    obtain ⟨c, hc, hword⟩ := hword
    obtain ⟨v, w, hv, hw, hvw⟩ := exists_of_mapM_of_forall₂ (values_of_read hk hfield)
      (values_of_read hl hfield) hsame.values c hc
    exact ChangeSource.isSome_of_same (hchanges c hc) hv hw hvw
      (fun text htext => hreadable text (numberText_of_changes hfield hc htext)) word hword

/-- A keyframe that is read, of known labels and numbers of the document, is a mapping. -/
theorem exists_node? (hknown : f.Known) (hdistinct : f.Distinct) (hk : f.read r = some k)
    (hreadable : ∀ word, f.NumberText word → (Yaml.Scalar.number? word.1).isSome = true) :
    ∃ n, f.node? = some n := by
  refine exists_mappingNode? hdistinct.1 fun g hg => ?_
  have hfield := fieldOf_of_mem hdistinct.1 hg
  rcases label_of_read hknown hdistinct.1 hk hg with ⟨word, hword, hlabel⟩ | ⟨items, hitems, hlabel⟩
  · rw [hword] at hfield ⊢
    exact exists_plainNode_of_number? (hreadable word (numberText_of_fieldOf hfield hlabel))
  · have hchanges := hdistinct.2 g hg
    have hlabels := (hknown g hg).2
    rw [hitems] at hfield hchanges hlabels ⊢
    rw [hlabel] at hfield
    obtain ⟨nodes, hnodes⟩ : ∃ nodes, items.mapM ChangeSource.node? = some nodes :=
      exists_mapM_of_forall_exists fun c hc =>
        have ⟨v, hv⟩ := exists_of_mem_mapM (values_of_read hk hfield) hc
        ChangeSource.exists_node? (hlabels c hc) (hchanges c hc) hv fun text htext =>
          hreadable text (numberText_of_changes hfield hc htext)
    exact ⟨.sequence nodes, by rw [FrameField.node?, hnodes]; rfl⟩

end FrameSource

/-! ## The two notations -/

/-- A mapping is written only of fields with distinct labels, each of which can be written. -/
theorem forall_of_mappingNode? {α : Type} {node? : α → Option Node} {fields : List (Word × α)}
    {n : Node} (h : mappingNode? node? fields = some n) :
    LabelsNodup fields ∧ ∀ f ∈ fields, ∃ m, node? f.2 = some m := by
  unfold mappingNode? at h
  split at h
  · next hnodup =>
    obtain ⟨entries, hentries, -⟩ := Option.map_eq_some_iff.1 h
    refine ⟨hnodup, fun f hf => ?_⟩
    obtain ⟨e, he⟩ := exists_of_mem_mapM hentries hf
    obtain ⟨m, hm, -⟩ := Option.map_eq_some_iff.1 he
    exact ⟨m, hm⟩
  · cases h

/-- A number of a document that is a dimension too is equal to it, and has no unit. -/
theorem Dimension.same_of_number? {word : Word} {x y : Double}
    (hx : parse? word.1 = some x) (hy : Yaml.Scalar.number? word.1 = some y) :
    x.Same y ∧ hasUnit word.1 = false := by
  obtain ⟨m, hm, rfl⟩ := Yaml.Scalar.exists_of_number? hy
  obtain ⟨hsame, hunit⟩ := same_of_plainNode word.2 hx hm
  exact ⟨hsame.symm, hunit⟩

namespace FrameSource

variable {f : FrameSource} {k l : KeyFrame}

/-- The keyframe that is read from the call. -/
def callFrame? (f : FrameSource) : Option KeyFrame := (Value.keyFrameOfNode f.callNode).toOption

/-- The keyframe that is read from the mapping, if there is one. -/
def mappingFrame? (f : FrameSource) : Option KeyFrame :=
  f.node?.bind fun n => (Value.keyFrameOfNode n).toOption

/-- Every number is one of a call. -/
def Dimensional (f : FrameSource) : Prop :=
  ∀ word, f.NumberText word → (Dimension.parse? word.1).isSome = true

/-- Every number is one of a mapping. -/
def Numeric (f : FrameSource) : Prop :=
  ∀ word, f.NumberText word → (Yaml.Scalar.number? word.1).isSome = true

/-- A keyframe is written as a mapping only if its labels are distinct. -/
theorem distinct_of_node? {n : Node} (h : f.node? = some n) : f.Distinct := by
  obtain ⟨hnodup, hfields⟩ := forall_of_mappingNode? h
  refine ⟨hnodup, fun g hg => ?_⟩
  obtain ⟨m, hm⟩ := hfields g hg
  cases hvalue : g.2 with
  | text => trivial
  | changes items =>
    rw [hvalue] at hm
    obtain ⟨nodes, hnodes, -⟩ := Option.map_eq_some_iff.1 hm
    intro c hc
    obtain ⟨node, hnode⟩ := exists_of_mem_mapM hnodes hc
    exact (forall_of_mappingNode? hnode).1

theorem read_of_mappingFrame? (h : f.mappingFrame? = some l) :
    f.Distinct ∧ f.read Yaml.Scalar.number? = some l := by
  obtain ⟨n, hn, hl⟩ := Option.bind_eq_some_iff.1 h
  exact ⟨distinct_of_node? hn, (Value.toOption_keyFrameOfNode hn).symm.trans hl⟩

/-- If the call is read, a mapping with the same labels and numbers gives the same keyframe. -/
theorem exists_same_of_callFrame? (hk : f.callFrame? = some k) (hdistinct : f.Distinct)
    (hnumeric : f.Numeric) : ∃ l, f.mappingFrame? = some l ∧ k.Same l := by
  obtain ⟨hknown, hdimensional⟩ := Value.known_of_callNode hk
  have hread : f.read Dimension.parse? = some k :=
    (Value.toOption_callNode hknown hdimensional hdistinct).symm.trans hk
  obtain ⟨n, hn⟩ := exists_node? hknown hdistinct hread hnumeric
  obtain ⟨l, hl⟩ := exists_read hread hnumeric
  refine ⟨l, ?_, same_of_read hread hl fun word hword => ?_⟩
  · rw [mappingFrame?, hn, Option.bind_some, Value.toOption_keyFrameOfNode hn, hl]
  · obtain ⟨x, hx⟩ := Option.isSome_iff_exists.1 (hdimensional word hword)
    obtain ⟨y, hy⟩ := Option.isSome_iff_exists.1 (hnumeric word hword)
    rw [hx, hy]
    exact .some (Dimension.same_of_number? hx hy).1

/-- If both are read as the same keyframe, all numbers are those of a mapping. -/
theorem numeric_of_same (hk : f.callFrame? = some k) (hl : f.mappingFrame? = some l)
    (hsame : k.Same l) : f.Distinct ∧ f.Numeric := by
  obtain ⟨hknown, hdimensional⟩ := Value.known_of_callNode hk
  obtain ⟨hdistinct, hread'⟩ := read_of_mappingFrame? hl
  have hread : f.read Dimension.parse? = some k :=
    (Value.toOption_callNode hknown hdimensional hdistinct).symm.trans hk
  exact ⟨hdistinct, isSome_of_same hknown hdistinct hread hread' hsame hdimensional⟩

/-- If the mapping is read and a call can be, the call is read. -/
theorem exists_callFrame? (hl : f.mappingFrame? = some l) (hknown : f.Known)
    (hdimensional : f.Dimensional) : ∃ k, f.callFrame? = some k := by
  obtain ⟨hdistinct, hread⟩ := read_of_mappingFrame? hl
  obtain ⟨k, hk⟩ := exists_read hread hdimensional
  exact ⟨k, (Value.toOption_callNode hknown hdimensional hdistinct).trans hk⟩

/-- Lists of keyframes are read alike if each frame that one notation reads has the other one, too.
-/
theorem rel_frames_iff {fs : List FrameSource} :
    Option.Rel (List.Forall₂ KeyFrame.Same) (fs.mapM callFrame?) (fs.mapM mappingFrame?) ↔
      ((fs.mapM callFrame?).isSome = true → ∀ f ∈ fs, f.Distinct ∧ f.Numeric) ∧
        ((fs.mapM mappingFrame?).isSome = true → ∀ f ∈ fs, f.Known ∧ f.Dimensional) := by
  rw [rel_mapM_iff]
  constructor
  · intro h
    refine ⟨fun hcalls f hf => ?_, fun hmappings f hf => ?_⟩
    · obtain ⟨k, l, hk, hl, hsame⟩ := h (.inl hcalls) f hf
      exact numeric_of_same hk hl hsame
    · obtain ⟨k, -, hk, -, -⟩ := h (.inr hmappings) f hf
      exact Value.known_of_callNode hk
  · rintro ⟨hcalls, hmappings⟩ h
    -- the calls are read in any case, as mappings that are read have calls that are
    obtain ⟨ks, hks⟩ : ∃ ks, fs.mapM callFrame? = some ks := by
      rcases h with hks | hls
      · exact Option.isSome_iff_exists.1 hks
      · obtain ⟨ls, hread⟩ := Option.isSome_iff_exists.1 hls
        refine exists_mapM_of_forall_exists fun f hf => ?_
        obtain ⟨l, hl⟩ := exists_of_mem_mapM hread hf
        obtain ⟨hknown, hdimensional⟩ := hmappings hls f hf
        exact exists_callFrame? hl hknown hdimensional
    intro f hf
    obtain ⟨k, hk⟩ := exists_of_mem_mapM hks hf
    obtain ⟨hdistinct, hnumeric⟩ := hcalls (by rw [hks]; rfl) f hf
    obtain ⟨l, hl, hsame⟩ := exists_same_of_callFrame? hk hdistinct hnumeric
    exact ⟨k, l, hk, hl, hsame⟩

end FrameSource

namespace Style

/-- The property whose value is a list of keyframes. -/
def framesProperty (ks : List KeyFrame) : Property :=
  .ofValue keyFramesKey (.array (ks.map .keyFrame))

theorem framesProperty_inj {ks ls : List KeyFrame} :
    framesProperty ks = framesProperty ls ↔ ks = ls := by
  have hinjective : Function.Injective Value.keyFrame := fun k l h => Value.keyFrame.inj h
  simp [framesProperty, Property.ofValue, (List.map_injective_iff.2 hinjective).eq_iff]

/-- What is read below the key of keyframes that are written as calls. -/
def callFrames (ctx : SheetContext) (depth : Nat) (fs : List FrameSource) : Option Property :=
  (propertyOfNode ctx (depth + 1) keyFramesKey (.sequence (fs.map FrameSource.callNode))).toOption

/-- What is read below the key of keyframes that are written as mappings. -/
def mappingFrames (ctx : SheetContext) (depth : Nat) (fs : List FrameSource) : Option Property :=
  (fs.mapM FrameSource.node?).bind fun nodes =>
    (propertyOfNode ctx (depth + 1) keyFramesKey (.sequence nodes)).toOption

/-- Two lists of keyframes that are equal one by one, or none in both places. -/
def SameFrames : Option Property → Option Property → Prop :=
  Option.Rel fun p q => ∃ ks ls, p = framesProperty ks ∧ q = framesProperty ls ∧
    List.Forall₂ KeyFrame.Same ks ls

theorem toOption_propertyOfNode_keyFrames (ctx : SheetContext) (depth : Nat) (items : List Node) :
    (propertyOfNode ctx (depth + 1) keyFramesKey (.sequence items)).toOption =
      (items.mapM fun n => (Value.keyFrameOfNode n).toOption).map framesProperty := by
  rw [propertyOfNode, if_pos rfl, framesOfNodes, toOption_map, ← toOption_mapM]
  cases items.mapM Value.keyFrameOfNode <;> rfl

theorem callFrames_eq (ctx : SheetContext) (depth : Nat) (fs : List FrameSource) :
    callFrames ctx depth fs = (fs.mapM FrameSource.callFrame?).map framesProperty := by
  rw [callFrames, toOption_propertyOfNode_keyFrames, List.mapM_map]
  rfl

theorem mappingFrames_eq (ctx : SheetContext) (depth : Nat) (fs : List FrameSource) :
    mappingFrames ctx depth fs = (fs.mapM FrameSource.mappingFrame?).map framesProperty := by
  have hread : fs.mapM FrameSource.mappingFrame? = (fs.mapM FrameSource.node?).bind fun nodes =>
      nodes.mapM fun n => (Value.keyFrameOfNode n).toOption := bind_mapM.symm
  simp only [mappingFrames, toOption_propertyOfNode_keyFrames]
  rw [hread, Option.map_bind]
  rfl

/-- The properties are the same if and only if the keyframes are. -/
theorem sameFrames_map_iff {ks ls : Option (List KeyFrame)} :
    SameFrames (ks.map framesProperty) (ls.map framesProperty) ↔
      Option.Rel (List.Forall₂ KeyFrame.Same) ks ls := by
  constructor
  · intro h
    cases ks with
    | none =>
      cases ls with
      | none => exact .none
      | some => cases h
    | some ks =>
      cases ls with
      | none => cases h
      | some ls =>
        cases h with
        | some h =>
          obtain ⟨ks', ls', hks, hls, hsame⟩ := h
          rw [framesProperty_inj] at hks hls
          rw [hks, hls]
          exact .some hsame
  · rintro (h | -)
    · exact .some ⟨_, _, rfl, rfl, h⟩
    · exact .none

/-- The two notations of a list of keyframes are read as equal keyframes, or both are refused, if
and only if two things hold. Whenever the calls are read, no label stands twice and every number is
one of a mapping, and whenever the mappings are read, every label is known and every number is one
of a call.

A call is read with all of its fields, each as what its label says. A mapping is read without the
fields that are unknown and without starts of changes that are no numbers of the document; and no
number with a unit is one. -/
theorem keyFrames_same_iff (ctx : SheetContext) (depth depth' : Nat) (fs : List FrameSource) :
    (SameFrames (callFrames ctx depth fs) (mappingFrames ctx depth' fs) ↔
      ((callFrames ctx depth fs).isSome = true → ∀ f ∈ fs, f.Distinct ∧ f.Numeric) ∧
        ((mappingFrames ctx depth' fs).isSome = true → ∀ f ∈ fs, f.Known ∧ f.Dimensional)) ∧
    (∀ p, callFrames ctx depth fs = some p →
      (∀ f ∈ fs, f.Known ∧ f.Dimensional) ∧ ((∀ f ∈ fs, f.Distinct) →
        ∃ ks, fs.mapM (FrameSource.read Dimension.parse?) = some ks ∧ p = framesProperty ks)) ∧
    (∀ p, mappingFrames ctx depth' fs = some p → (∀ f ∈ fs, f.Distinct) ∧
      ∃ ks, fs.mapM (FrameSource.read Yaml.Scalar.number?) = some ks ∧ p = framesProperty ks) ∧
    ∀ word : Word, (Dimension.parse? word.1).isSome = true → Dimension.hasUnit word.1 = true →
      Yaml.Scalar.number? word.1 = none := by
  have hcalls : ∀ {ks}, fs.mapM FrameSource.callFrame? = some ks →
      ∀ f ∈ fs, f.Known ∧ f.Dimensional := fun hks f hf =>
    have ⟨_, hk⟩ := exists_of_mem_mapM hks hf
    Value.known_of_callNode hk
  have hmappings : ∀ {ls}, fs.mapM FrameSource.mappingFrame? = some ls →
      ∀ f ∈ fs, f.Distinct := fun hls f hf =>
    have ⟨_, hl⟩ := exists_of_mem_mapM hls hf
    (FrameSource.read_of_mappingFrame? hl).1
  refine ⟨?_, ?_, ?_, ?_⟩
  · rw [callFrames_eq, mappingFrames_eq, sameFrames_map_iff, Option.isSome_map, Option.isSome_map]
    exact FrameSource.rel_frames_iff
  · intro p hp
    rw [callFrames_eq] at hp
    obtain ⟨ks, hks, rfl⟩ := Option.map_eq_some_iff.1 hp
    refine ⟨hcalls hks, fun hdistinct => ⟨ks, ?_, rfl⟩⟩
    rw [option_mapM_eq_some_iff] at hks ⊢
    refine forall₂_imp_of_mem hks fun f hf k _ hk => ?_
    obtain ⟨hknown, hdimensional⟩ := Value.known_of_callNode hk
    exact (Value.toOption_callNode hknown hdimensional (hdistinct f hf)).symm.trans hk
  · intro p hp
    rw [mappingFrames_eq] at hp
    obtain ⟨ls, hls, rfl⟩ := Option.map_eq_some_iff.1 hp
    refine ⟨hmappings hls, ls, ?_, rfl⟩
    rw [option_mapM_eq_some_iff] at hls ⊢
    exact forall₂_imp_of_mem hls fun f _ l _ hl => (FrameSource.read_of_mappingFrame? hl).2
  · intro word hword hunit
    obtain ⟨x, hx⟩ := Option.isSome_iff_exists.1 hword
    cases hy : Yaml.Scalar.number? word.1 with
    | none => rfl
    | some y =>
      rw [(Dimension.same_of_number? hx hy).2] at hunit
      cases hunit

/-- A change of the opacity from a number to one, and nothing else. -/
def fadeIn (start : Word) : FrameSource :=
  [(⟨"animationValues", by decide⟩, .changes [[(⟨"type", by decide⟩, ⟨"opacity", by decide⟩),
    (⟨"from", by decide⟩, start), (⟨"to", by decide⟩, ⟨"1", by decide⟩)]])]

/-- A number with a unit is the start of a change in a call, and in a mapping the change has no
start. -/
theorem keyFrames_lostStart :
    callFrames ⟨"Theme", []⟩ 0 [fadeIn ⟨"0pt", by decide⟩] =
        some (framesProperty [⟨0, none, [⟨.opacity, some 0, .ofInt 1⟩]⟩]) ∧
      mappingFrames ⟨"Theme", []⟩ 0 [fadeIn ⟨"0pt", by decide⟩] =
        some (framesProperty [⟨0, none, [⟨.opacity, none, .ofInt 1⟩]⟩]) ∧
      ¬ SameFrames (callFrames ⟨"Theme", []⟩ 0 [fadeIn ⟨"0pt", by decide⟩])
        (mappingFrames ⟨"Theme", []⟩ 0 [fadeIn ⟨"0pt", by decide⟩]) := by
  have hcall : [fadeIn ⟨"0pt", by decide⟩].mapM FrameSource.callFrame? =
      some [⟨0, none, [⟨.opacity, some 0, .ofInt 1⟩]⟩] := by decide +kernel
  have hmapping : [fadeIn ⟨"0pt", by decide⟩].mapM FrameSource.mappingFrame? =
      some [⟨0, none, [⟨.opacity, none, .ofInt 1⟩]⟩] := by decide +kernel
  rw [callFrames_eq, mappingFrames_eq, hcall, hmapping, sameFrames_map_iff]
  refine ⟨rfl, rfl, fun h => ?_⟩
  cases h with
  | some h =>
    cases h with
    | cons hframe _ =>
      cases hframe.values with
      | cons hchange _ =>
        have hstart : Option.Rel Double.Same (some 0) none := hchange.start
        cases hstart

end Style

end Appearance
