import Appearance.Proofs.FrameSources

/-!
# Keyframes in call form

A keyframe in call form is read from left to right. Each label must be known and each number must be
a dimension (`Value.known_of_callNode`), and where no label stands twice the fields are found by
their labels, as in the mapping form (`Value.toOption_callNode`).

The two notations meet in `FrameSource.read`. For a call that is a statement about the order of
reading: the fields are taken one after the other, so with a label that stands twice the later
field counts, and without one the order makes no difference.

A call keeps raw texts of its arguments, which depend on how the source was spelled, so arguments
are compared through `Argument.Carries`, which forgets them. Errors are dropped at once, and what
is left is that reading from left to right finds under each label the field that `fieldOf` finds,
as long as labels are distinct. Known labels and readable numbers are consequences of the call
being read and not assumptions about it.
-/

namespace Appearance

open Appearance.Text
open Appearance.Yaml (Node)

/-! ## Arguments with labels -/

namespace ChangeSource

/-- Every label is one of a change. -/
def Known (c : ChangeSource) : Prop := ∀ f ∈ c, f.1.1 ∈ labels

/-- The text stands where a number belongs. -/
def NumberText (c : ChangeSource) (text : Word) : Prop :=
  ∃ f ∈ c, f.1.1 ∈ numberLabels ∧ f.2 = text

theorem known_cons {f : Word × Word} {c : ChangeSource} :
    Known (f :: c) ↔ f.1.1 ∈ labels ∧ c.Known := List.forall_mem_cons

/-- The numbers of a change are looked through field by field. -/
theorem forall_numberText_cons {f : Word × Word} {c : ChangeSource} {p : Word → Prop} :
    (∀ text, NumberText (f :: c) text → p text) ↔
      (f.1.1 ∈ numberLabels → p f.2) ∧ ∀ text, c.NumberText text → p text := by
  simp only [NumberText, List.mem_cons, exists_eq_or_imp, or_imp, forall_and]
  refine and_congr_left fun _ => ⟨fun h hlabel => h f.2 ⟨hlabel, rfl⟩, ?_⟩
  rintro h _ ⟨hlabel, rfl⟩
  exact h hlabel

end ChangeSource

/-- The argument carries a label and an expression, whatever text it keeps. -/
structure Argument.Carries (a : Argument) (label : String) (e : Expr) : Prop where
  label_eq : a.label = some label
  bare_eq : a.value.bare = e.bare

namespace Expr

theorem eq_word_of_bare {e : Expr} {text : String} (h : e.bare = (word text).bare) :
    e = word text := by
  cases e <;> simp only [bare, reduceCtorEq] at h
  exact h

/-- Arguments that agree but for their sources agree one by one. -/
theorem forall₂_of_bareArguments {as bs : List Argument}
    (h : bareArguments as = bareArguments bs) :
    List.Forall₂ (fun a b => a.label = b.label ∧ a.value.bare = b.value.bare) as bs := by
  induction as generalizing bs with
  | nil =>
    cases bs with
    | nil => exact .nil
    | cons => cases h
  | cons a as ih =>
    cases bs with
    | nil => cases h
    | cons b bs =>
      obtain ⟨la, va, ra⟩ := a
      obtain ⟨lb, vb, rb⟩ := b
      simp only [bareArguments, Argument.bare, List.cons.injEq, Argument.mk.injEq, and_true] at h
      exact .cons h.1 (ih h.2)

/-- Items that agree but for their sources agree one by one. -/
theorem forall₂_of_bareItems {es ds : List Expr} (h : bareItems es = bareItems ds) :
    List.Forall₂ (fun e d => e.bare = d.bare) es ds := by
  induction es generalizing ds with
  | nil =>
    cases ds with
    | nil => exact .nil
    | cons => cases h
  | cons e es ih =>
    cases ds with
    | nil => cases h
    | cons d ds =>
      simp only [bareItems, List.cons.injEq] at h
      exact .cons h.1 (ih h.2)

/-- A call with the arguments of labelled fields has these fields, up to the texts it keeps. -/
theorem exists_of_bare_call {α : Type} {e : Expr} {name : String} {label : α → String}
    {expr : α → Expr} {raw : α → String} {fields : List α}
    (h : e.bare = (call name (fields.map fun f => .mk (some (label f)) (expr f) (raw f))).bare) :
    ∃ arguments, e = call name arguments ∧
      List.Forall₂ (fun a f => a.Carries (label f) (expr f)) arguments fields := by
  cases e <;> simp only [bare, reduceCtorEq, call.injEq] at h
  obtain ⟨rfl, h⟩ := h
  refine ⟨_, rfl, ?_⟩
  refine (List.forall₂_map_right_iff.1 (forall₂_of_bareArguments h)).imp fun a f hf => ⟨hf.1, hf.2⟩

theorem exists_of_bare_list {e : Expr} {es : List Expr} (h : e.bare = (list es).bare) :
    ∃ ds, e = list ds ∧ List.Forall₂ (fun d e => d.bare = e.bare) ds es := by
  cases e <;> simp only [bare, reduceCtorEq, list.injEq] at h
  exact ⟨_, rfl, forall₂_of_bareItems h⟩

end Expr

namespace Value

theorem nameOf_of_carries {a : Argument} {label text : String} (h : a.Carries label (.word text))
    (source : String) : nameOf source a = .ok text := by
  rw [nameOf, Expr.eq_word_of_bare h.bare_eq]
  rfl

theorem toOption_numberOf {a : Argument} {label text : String} (h : a.Carries label (.word text))
    (source : String) : (numberOf source a).toOption = Dimension.parse? text := by
  rw [numberOf, Expr.eq_word_of_bare h.bare_eq]
  dsimp only [Expr.text?, Option.bind_some]
  cases Dimension.parse? text <;> rfl

/-- The arguments are those of a change. -/
abbrev CarryChange (arguments : List Argument) (c : ChangeSource) : Prop :=
  List.Forall₂ (fun a f => a.Carries f.1.1 (.word f.2.1)) arguments c

/-- A change in call form has no label that is unknown and no number that is none. -/
theorem known_of_changeFields {source : String} {arguments : List Argument} {c : ChangeSource}
    (h : CarryChange arguments c) {fields result : ChangeFields}
    (hok : changeFields source fields arguments = .ok result) :
    c.Known ∧ ∀ text, c.NumberText text → (Dimension.parse? text.1).isSome = true := by
  induction h generalizing fields with
  | nil => exact ⟨nofun, by rintro text ⟨f, hf, -⟩; cases hf⟩
  | @cons a f arguments c ha _ ih =>
    rw [ChangeSource.known_cons, ChangeSource.forall_numberText_cons]
    have hnumber : ∀ x, numberOf source a = .ok x → (Dimension.parse? f.2.1).isSome = true := by
      intro x hx
      rw [← toOption_numberOf ha source, hx]
      rfl
    rw [changeFields, ha.label_eq] at hok
    split at hok
    · next hlabel =>
      obtain ⟨name, -, hok⟩ := bind_eq_ok.1 hok
      obtain ⟨hknown, hreadable⟩ := ih hok
      have hlabel : f.1.1 = "type" := Option.some.inj hlabel
      exact ⟨⟨by rw [hlabel]; decide, hknown⟩, fun hmem => absurd hmem (by rw [hlabel]; decide),
        hreadable⟩
    · next hlabel =>
      obtain ⟨x, hx, hok⟩ := bind_eq_ok.1 hok
      obtain ⟨hknown, hreadable⟩ := ih hok
      have hlabel : f.1.1 = "from" := Option.some.inj hlabel
      exact ⟨⟨by rw [hlabel]; decide, hknown⟩, fun _ => hnumber x hx, hreadable⟩
    · next hlabel =>
      obtain ⟨x, hx, hok⟩ := bind_eq_ok.1 hok
      obtain ⟨hknown, hreadable⟩ := ih hok
      have hlabel : f.1.1 = "to" := Option.some.inj hlabel
      exact ⟨⟨by rw [hlabel]; decide, hknown⟩, fun _ => hnumber x hx, hreadable⟩
    · cases hok

/-- The fields of a change in call form are found by their labels. -/
theorem changeFields_eq_ok {source : String} {arguments : List Argument} {c : ChangeSource}
    (h : CarryChange arguments c) (hknown : c.Known)
    (hreadable : ∀ text, c.NumberText text → (Dimension.parse? text.1).isSome = true)
    (hnodup : LabelsNodup c) (fields : ChangeFields) :
    changeFields source fields arguments = .ok
      ⟨((fieldOf "type" c).map Subtype.val).or fields.property,
        ((fieldOf "from" c).bind fun text => Dimension.parse? text.1).or fields.start,
        ((fieldOf "to" c).bind fun text => Dimension.parse? text.1).or fields.finish⟩ := by
  induction h generalizing fields with
  | nil => rfl
  | @cons a f arguments c ha _ ih =>
    rw [ChangeSource.known_cons] at hknown
    rw [ChangeSource.forall_numberText_cons] at hreadable
    rw [labelsNodup_cons] at hnodup
    have hrest : fieldOf f.1.1 c = none := fieldOf_eq_none hnodup.1
    have ih := ih hknown.2 hreadable.2 hnodup.2
    have hnumber : f.1.1 ∈ ChangeSource.numberLabels →
        ∃ x, Dimension.parse? f.2.1 = some x ∧ numberOf source a = .ok x := fun hmem => by
      obtain ⟨x, hx⟩ := Option.isSome_iff_exists.1 (hreadable.1 hmem)
      exact ⟨x, hx, toOption_eq_some.1 ((toOption_numberOf ha source).trans hx)⟩
    rw [changeFields, ha.label_eq]
    rcases ChangeSource.mem_labels.1 hknown.1 with hlabel | hlabel | hlabel
    · have hname := nameOf_of_carries ha source
      simp only [fieldOf_cons, hlabel, String.reduceEq, if_true, if_false] at hrest ⊢
      simp only [hname, bind, Except.bind, ih, hrest]
      rfl
    · obtain ⟨x, hx, hok⟩ := hnumber (ChangeSource.mem_numberLabels.2 (.inl hlabel))
      simp only [fieldOf_cons, hlabel, String.reduceEq, if_true, if_false] at hrest ⊢
      simp only [hok, bind, Except.bind, ih, hrest, Option.bind, hx]
      rfl
    · obtain ⟨x, hx, hok⟩ := hnumber (ChangeSource.mem_numberLabels.2 (.inr hlabel))
      simp only [fieldOf_cons, hlabel, String.reduceEq, if_true, if_false] at hrest ⊢
      simp only [hok, bind, Except.bind, ih, hrest, Option.bind, hx]
      rfl

/-- An item that is the call of a change is read from the arguments of the change. -/
theorem exists_changeOfItem {e : Expr} {c : ChangeSource} (h : e.bare = c.call.bare)
    (source : String) :
    ∃ arguments, CarryChange arguments c ∧
      changeOfItem source e = changeOfCall source arguments := by
  obtain ⟨arguments, rfl, harguments⟩ := Expr.exists_of_bare_call h
  have hkeyword : Keyword.ofName? "animationValue" = some .animationValue := by decide +kernel
  exact ⟨arguments, harguments, by rw [changeOfItem, if_pos hkeyword]⟩

/-- A change that is read from a call has known labels and readable numbers. -/
theorem known_of_changeOfItem {source : String} {e : Expr} {c : ChangeSource} {v : AnimationValue}
    (h : e.bare = c.call.bare) (hok : changeOfItem source e = .ok v) :
    c.Known ∧ ∀ text, c.NumberText text → (Dimension.parse? text.1).isSome = true := by
  obtain ⟨arguments, harguments, hitem⟩ := exists_changeOfItem h source
  rw [hitem] at hok
  obtain ⟨fields, hfields, -⟩ := bind_eq_ok.1 hok
  exact known_of_changeFields harguments hfields

/-- Where no label stands twice the fields of the call are found by their labels. -/
theorem toOption_changeOfItem {e : Expr} {c : ChangeSource} (h : e.bare = c.call.bare)
    (hknown : c.Known)
    (hreadable : ∀ text, c.NumberText text → (Dimension.parse? text.1).isSome = true)
    (hnodup : LabelsNodup c) (source : String) :
    (changeOfItem source e).toOption = c.read Dimension.parse? := by
  obtain ⟨arguments, harguments, hitem⟩ := exists_changeOfItem h source
  have hfields := @changeFields_eq_ok source _ _ harguments hknown hreadable hnodup
    ⟨none, none, none⟩
  rw [hitem, changeOfCall, hfields]
  simp only [bind, Except.bind, Option.or_none]
  rw [toOption_changeOfFields, ChangeSource.read, Option.bind_map]
  rfl

end Value

namespace FrameField

/-- Every label of its changes is one of a change. -/
def Known : FrameField → Prop
  | text _ => True
  | changes items => ∀ c ∈ items, c.Known

/-- No label stands twice in one of its changes. -/
def Distinct : FrameField → Prop
  | text _ => True
  | changes items => ∀ c ∈ items, LabelsNodup c

/-- The text stands where a number belongs, behind the label or in a change. -/
def NumberText (label : String) : FrameField → Word → Prop
  | text word, number => label ∈ FrameSource.numberLabels ∧ word = number
  | changes items, number => ∃ c ∈ items, c.NumberText number

end FrameField

namespace FrameSource

/-- Every label is one of a keyframe, and those of its changes are labels of changes. -/
def Known (f : FrameSource) : Prop := ∀ g ∈ f, g.1.1 ∈ labels ∧ g.2.Known

/-- No label stands twice in the keyframe or in one of its changes. -/
def Distinct (f : FrameSource) : Prop := LabelsNodup f ∧ ∀ g ∈ f, g.2.Distinct

/-- The text stands where a number belongs, in the keyframe or in one of its changes. -/
def NumberText (f : FrameSource) (number : Word) : Prop := ∃ g ∈ f, g.2.NumberText g.1.1 number

theorem forall_numberText_cons {g : Word × FrameField} {f : FrameSource} {p : Word → Prop} :
    (∀ number, NumberText (g :: f) number → p number) ↔
      (∀ number, g.2.NumberText g.1.1 number → p number) ∧
        ∀ number, f.NumberText number → p number := by
  simp only [NumberText, List.mem_cons, exists_eq_or_imp, or_imp, forall_and]

theorem distinct_cons {g : Word × FrameField} {f : FrameSource} :
    Distinct (g :: f) ↔ (∀ h ∈ f, h.1.1 ≠ g.1.1) ∧ g.2.Distinct ∧ f.Distinct := by
  rw [Distinct, labelsNodup_cons, List.forall_mem_cons, Distinct]
  tauto

end FrameSource

namespace Value

/-- A number of a keyframe in call form is a text. -/
theorem exists_text_of_numberOf {a : Argument} {label source : String} {g : FrameField} {x : Double}
    (h : a.Carries label g.expr) (hx : numberOf source a = .ok x) :
    ∃ word, g = .text word ∧ Dimension.parse? word.1 = some x := by
  cases g with
  | text word =>
    refine ⟨word, rfl, ?_⟩
    rw [← toOption_numberOf h source, hx]
    rfl
  | changes items =>
    obtain ⟨es, hes, -⟩ := Expr.exists_of_bare_list h.bare_eq
    rw [numberOf, hes] at hx
    cases hx

/-- The changes of a keyframe in call form are a list of calls. -/
theorem exists_changes_of_changesOf {e : Expr} {source : String} {g : FrameField}
    {vs : List AnimationValue} (h : e.bare = g.expr.bare) (hok : changesOf source e = .ok vs) :
    ∃ items es, g = .changes items ∧ List.Forall₂ (fun e c => e.bare = c.call.bare) es items ∧
      es.mapM (changeOfItem source) = .ok vs := by
  cases g with
  | text word =>
    rw [Expr.eq_word_of_bare h] at hok
    cases hok
  | changes items =>
    obtain ⟨es, rfl, hes⟩ := Expr.exists_of_bare_list h
    rw [List.forall₂_map_right_iff] at hes
    exact ⟨items, es, rfl, hes, hok⟩

/-- A keyframe in call form has no label that is unknown and no number that is none. -/
theorem known_of_keyFrameOfCall {source : String} {arguments : List Argument} {f : FrameSource}
    (h : List.Forall₂ (fun a g => a.Carries g.1.1 g.2.expr) arguments f) {k result : KeyFrame}
    (hok : keyFrameOfCall source k arguments = .ok result) :
    f.Known ∧ ∀ number, f.NumberText number → (Dimension.parse? number.1).isSome = true := by
  induction h generalizing k with
  | nil => exact ⟨nofun, by rintro number ⟨g, hg, -⟩; cases hg⟩
  | @cons a g arguments f ha _ ih =>
    rw [FrameSource.Known, List.forall_mem_cons, FrameSource.forall_numberText_cons]
    have hnumber : ∀ x, numberOf source a = .ok x → g.2.Known ∧
        ∀ number, g.2.NumberText g.1.1 number → (Dimension.parse? number.1).isSome = true := by
      intro x hx
      obtain ⟨word, hword, hparse⟩ := exists_text_of_numberOf ha hx
      rw [hword]
      refine ⟨trivial, ?_⟩
      rintro number ⟨-, rfl⟩
      rw [hparse]
      rfl
    rw [keyFrameOfCall, ha.label_eq] at hok
    split at hok
    · next hlabel =>
      obtain ⟨x, hx, hok⟩ := bind_eq_ok.1 hok
      have hlabel : g.1.1 = "relativeStartTime" := Option.some.inj hlabel
      exact ⟨⟨⟨by rw [hlabel]; decide, (hnumber x hx).1⟩, (ih hok).1⟩, (hnumber x hx).2, (ih hok).2⟩
    · next hlabel =>
      obtain ⟨x, hx, hok⟩ := bind_eq_ok.1 hok
      have hlabel : g.1.1 = "relativeDuration" := Option.some.inj hlabel
      exact ⟨⟨⟨by rw [hlabel]; decide, (hnumber x hx).1⟩, (ih hok).1⟩, (hnumber x hx).2, (ih hok).2⟩
    · next hlabel =>
      obtain ⟨vs, hvs, hok⟩ := bind_eq_ok.1 hok
      have hlabel : g.1.1 = "animationValues" := Option.some.inj hlabel
      obtain ⟨items, es, hitems, hes, hmap⟩ := exists_changes_of_changesOf ha.bare_eq hvs
      have hitem : ∀ c ∈ items, c.Known ∧
          ∀ text, c.NumberText text → (Dimension.parse? text.1).isSome = true := by
        intro c hc
        obtain ⟨e, he, hbare⟩ := exists_mem_of_forall₂ hes hc
        obtain ⟨v, -, hv⟩ := exists_mem_of_forall₂ (forall₂_of_mapM hmap).flip he
        exact known_of_changeOfItem hbare hv
      rw [hitems]
      refine ⟨⟨⟨by rw [hlabel]; decide, fun c hc => (hitem c hc).1⟩, (ih hok).1⟩, ?_, (ih hok).2⟩
      rintro number ⟨c, hc, hnumber⟩
      exact (hitem c hc).2 number hnumber
    · cases hok

/-- A number of a keyframe in call form is read as a dimension. -/
theorem toOption_numberOf_expr {a : Argument} {label : String} {g : FrameField}
    (h : a.Carries label g.expr) (source : String) :
    (numberOf source a).toOption = g.number? Dimension.parse? := by
  cases g with
  | text word => exact toOption_numberOf h source
  | changes items =>
    obtain ⟨es, hes, -⟩ := Expr.exists_of_bare_list h.bare_eq
    rw [numberOf, hes]
    rfl

/-- The changes of a keyframe in call form are read one by one. -/
theorem toOption_changesOf {e : Expr} {g : FrameField} {label : String}
    (h : e.bare = g.expr.bare) (hknown : g.Known)
    (hreadable : ∀ number, g.NumberText label number → (Dimension.parse? number.1).isSome = true)
    (hdistinct : g.Distinct) (source : String) :
    (changesOf source e).toOption = g.changes? Dimension.parse? := by
  cases g with
  | text word =>
    rw [Expr.eq_word_of_bare h]
    rfl
  | changes items =>
    obtain ⟨es, rfl, hes⟩ := Expr.exists_of_bare_list h
    rw [List.forall₂_map_right_iff] at hes
    rw [changesOf, toOption_mapM, FrameField.changes?]
    have hitem : List.Forall₂ (fun e c => (changeOfItem source e).toOption =
        c.read Dimension.parse?) es items :=
      forall₂_imp_of_mem hes fun e _ c hc hbare => toOption_changeOfItem hbare (hknown c hc)
        (fun number hnumber => hreadable number ⟨c, hc, hnumber⟩) (hdistinct c hc) source
    clear hes h hknown hreadable hdistinct
    induction hitem with
    | nil => rfl
    | cons he _ ih => rw [List.mapM_cons, List.mapM_cons, he, ih]

/-- The fields of a keyframe in call form are found by their labels. -/
theorem toOption_keyFrameOfCall {source : String} {arguments : List Argument} {f : FrameSource}
    (h : List.Forall₂ (fun a g => a.Carries g.1.1 g.2.expr) arguments f) (hknown : f.Known)
    (hreadable : ∀ number, f.NumberText number → (Dimension.parse? number.1).isSome = true)
    (hdistinct : f.Distinct) (k : KeyFrame) :
    (keyFrameOfCall source k arguments).toOption = (do
      let start ← (fieldOf "relativeStartTime" f).mapM (FrameField.number? Dimension.parse?)
      let duration ← (fieldOf "relativeDuration" f).mapM (FrameField.number? Dimension.parse?)
      let changes ← (fieldOf "animationValues" f).mapM (FrameField.changes? Dimension.parse?)
      return ⟨start.getD k.startTime, duration.or k.duration, k.values ++ changes.getD []⟩) := by
  induction h generalizing k with
  | nil => simp [keyFrameOfCall, fieldOf, Except.toOption]
  | @cons a g arguments f ha _ ih =>
    obtain ⟨⟨hlabel, hknown⟩, hknowns⟩ := List.forall_mem_cons.1 hknown
    rw [FrameSource.forall_numberText_cons] at hreadable
    obtain ⟨hne, hfield, hrest⟩ := FrameSource.distinct_cons.1 hdistinct
    have hnone : fieldOf g.1.1 f = none := fieldOf_eq_none hne
    have hnumber := toOption_numberOf_expr ha source
    have hchanges := toOption_changesOf ha.bare_eq hknown hreadable.1 hfield source
    have ih := ih hknowns hreadable.2 hrest
    rw [keyFrameOfCall, ha.label_eq]
    rcases FrameSource.mem_labels.1 hlabel with hlabel | hlabel | hlabel
    · simp only [fieldOf_cons, hlabel, String.reduceEq, if_true, if_false] at hnone ⊢
      simp only [toOption_bind, hnumber, ih, hnone, Option.mapM_some, Option.mapM_none]
      cases g.2.number? Dimension.parse? <;> rfl
    · simp only [fieldOf_cons, hlabel, String.reduceEq, if_true, if_false] at hnone ⊢
      simp only [toOption_bind, hnumber, ih, hnone, Option.mapM_some, Option.mapM_none]
      cases g.2.number? Dimension.parse? <;>
        cases (fieldOf "relativeStartTime" f).mapM (FrameField.number? Dimension.parse?) <;> rfl
    · simp only [fieldOf_cons, hlabel, String.reduceEq, if_true, if_false] at hnone ⊢
      simp only [toOption_bind, hchanges, ih, hnone, Option.mapM_some, Option.mapM_none]
      cases g.2.changes? Dimension.parse? <;>
        cases (fieldOf "relativeStartTime" f).mapM (FrameField.number? Dimension.parse?) <;>
          cases (fieldOf "relativeDuration" f).mapM (FrameField.number? Dimension.parse?) <;>
            simp

end Value

namespace FrameSource

/-- Every field of a keyframe can be printed and read back. -/
theorem printable_expr (g : FrameField) : g.expr.Printable := by
  cases g with
  | text word => exact .word word.2
  | changes items =>
    refine .list fun e he => ?_
    obtain ⟨c, -, rfl⟩ := List.mem_map.1 he
    refine .call (by decide) fun a ha => ?_
    obtain ⟨f, -, rfl⟩ := List.mem_map.1 ha
    exact .mk (by rintro _ ⟨⟩; exact f.1.2) (.word f.2.2)

theorem printable_call (f : FrameSource) : f.call.Printable := by
  refine .call (by decide) fun a ha => ?_
  obtain ⟨g, -, rfl⟩ := List.mem_map.1 ha
  exact .mk (by rintro _ ⟨⟩; exact g.1.2) (printable_expr g.2)

end FrameSource

namespace Value

/-- The string with a keyframe as a call is read from the arguments of the call. -/
theorem exists_arguments_of_callNode (f : FrameSource) :
    ∃ source arguments, List.Forall₂ (fun a g => a.Carries g.1.1 g.2.expr) arguments f ∧
      (keyFrameOfNode f.callNode).toOption =
        (keyFrameOfCall source emptyKeyFrame arguments).toOption := by
  obtain ⟨e, hparse, hbare⟩ := f.printable_call.parse_print
  obtain ⟨arguments, rfl, harguments⟩ := Expr.exists_of_bare_call hbare
  refine ⟨f.call.print, arguments, harguments, ?_⟩
  have hkeyword : Keyword.ofName? "keyFrame" = some .keyFrame := by decide +kernel
  rw [FrameSource.callNode, keyFrameOfNode, parse, hparse]
  simp only [ofExpr, hkeyword, ofCall]
  cases keyFrameOfCall f.call.print emptyKeyFrame arguments <;> rfl

/-- A keyframe in call form has no label that is unknown and no number that is none. -/
theorem known_of_callNode {f : FrameSource} {k : KeyFrame}
    (h : (keyFrameOfNode f.callNode).toOption = some k) :
    f.Known ∧ ∀ number, f.NumberText number → (Dimension.parse? number.1).isSome = true := by
  obtain ⟨source, arguments, harguments, hread⟩ := exists_arguments_of_callNode f
  exact known_of_keyFrameOfCall harguments (toOption_eq_some.1 (hread.symm.trans h))

/-- A keyframe in call form is read by its labels, if none of them stands twice. -/
theorem toOption_callNode {f : FrameSource} (hknown : f.Known)
    (hreadable : ∀ number, f.NumberText number → (Dimension.parse? number.1).isSome = true)
    (hdistinct : f.Distinct) :
    (keyFrameOfNode f.callNode).toOption = f.read Dimension.parse? := by
  obtain ⟨source, arguments, harguments, hread⟩ := exists_arguments_of_callNode f
  rw [hread, toOption_keyFrameOfCall harguments hknown hreadable hdistinct]
  simp only [emptyKeyFrame, Option.or_none, List.nil_append]
  rfl

end Value

end Appearance
