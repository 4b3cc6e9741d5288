import Appearance.Proofs.NumberTexts
import Appearance.Proofs.Scopes
import Appearance.Proofs.Stems

/-!
# Plain texts in generated code

Where the names and texts of a value are plain, so are its type (`Value.plain_swiftType`) and its
expression (`Value.plain_toSwift`); numbers and conditions always are (`Code.plain_number`,
`Condition.plain_toSwift`). For a style, `Style.PlainTexts` says this of the names, the keys and the
values at every depth.

A text is plain if it has no brace and no line end, so that a line made of it opens and closes no
scope. Names come from the sources, so for them this has to be supposed; all the rest is written by
the generator and is plain as it stands.
-/

namespace Appearance

open Appearance.Text

namespace Code

theorem plain_firstUpper {s : String} (h : Plain s) : Plain (firstUpper s) := fun c hc => by
  have hsubset : frameMarks ⊆ uncased := by decide
  by_contra hframe
  have hmark := mem_frameMarks (Bool.eq_false_iff.2 hframe)
  exact hframe (h c (mem_of_mem_firstUpper (hsubset hmark) hc))

/-- A character may be replaced by one that is plain. -/
theorem plain_replaceChar {new : Char} (old : Char) (hnew : isText new = true) {s : String}
    (h : Plain s) : Plain (replaceChar old new s) := by
  rw [replaceChar, plain_ofList, List.forall_mem_map]
  intro c hc
  split
  · exact hnew
  · exact h c hc

theorem plain_intercalate {separator : String} (hseparator : Plain separator) {parts : List String}
    (h : ∀ s ∈ parts, Plain s) : Plain (separator.intercalate parts) := by
  rw [Plain, String.toList_intercalate]
  exact forall_mem_intercalate hseparator (List.forall_mem_map.2 h)

/-! ## Numbers -/

theorem isText_of_isDigit {c : Char} (h : c.isDigit = true) : isText c = true := by
  have hmarks : ∀ d ∈ frameMarks, d.isDigit = false := by decide
  by_contra hframe
  rw [hmarks c (mem_frameMarks (Bool.eq_false_iff.2 hframe))] at h
  cases h

theorem plain_number (x : Double) : Plain (number x) :=
  forall_mem_number (fun _ => isText_of_isDigit) (by decide) x

theorem plain_natText (n : Nat) : Plain (natText n) :=
  plain_ofList.2 fun _ hc =>
    isText_of_isDigit (Nat.isDigit_of_mem_toDigits (by decide) (by decide) hc)

theorem plain_intText (n : Int) : Plain (intText n) := by
  unfold intText
  split
  · exact plain_behind (by decide) (plain_natText _)
  · exact plain_natText _

/-- A number between fixed texts, behind another text. -/
theorem plain_labelled {cs ds : List Char} (h : ∀ c ∈ cs ++ ds, isText c = true) (x : Double)
    {s : String} (hs : Plain s) :
    Plain (s ++ String.ofList cs ++ number x ++ String.ofList ds) := by
  obtain ⟨hcs, hds⟩ := List.forall_mem_append.1 h
  exact plain_append.2 ⟨plain_append.2 ⟨plain_append.2 ⟨hs, plain_literal hcs⟩, plain_number x⟩,
    plain_literal hds⟩

end Code

open Code

/-! ## Conditions -/

theorem Metric.plain_toSwift (m : Metric) : Plain m.toSwift := by
  cases m <;> exact plain_literal (by decide)

theorem Term.plain_toSwift (t : Term) : Plain t.toSwift := by
  cases t with
  | constant value => exact plain_number value
  | contentSize size => cases size <;> exact plain_literal (by decide)
  | _ => exact plain_literal (by decide)

theorem Comparator.plain_toSwift (c : Comparator) : Plain c.toSwift := by
  cases c <;> exact plain_literal (by decide)

/-- One comparison is plain on both of its sides. -/
theorem Expression.plain_toSwift (e : Expression) : Plain e.toSwift := by
  cases e with
  | always raw => exact (plain_literal (by decide) : Plain "true")
  | comparison raw left comparator right =>
    have hblank : Plain " " := plain_literal (by decide)
    simp only [Expression.toSwift, plain_append]
    exact ⟨⟨⟨⟨left.plain_toSwift, hblank⟩, comparator.plain_toSwift⟩, hblank⟩, right.plain_toSwift⟩

theorem Condition.plain_toSwift (c : Condition) : Plain c.toSwift :=
  plain_intercalate (plain_literal (by decide)) (List.forall_mem_map.2 fun e _ => e.plain_toSwift)

/-! ## Fonts and animations -/

/-- What stands before the name of an enumeration. -/
theorem Value.plain_enums : Plain (enums ++ ".") :=
  plain_append.2 ⟨plain_literal (by decide), plain_literal (by decide)⟩

/-- The texts that a font gives are plain. -/
def Font.PlainTexts : Font → Prop
  | symbol name => Plain name
  | sized (.named family) _ _ _ => Plain family
  | sized .. => True
  | styled (.named family) style _ _ => Plain family ∧ Plain style.name
  | styled _ style _ _ => Plain style.name

namespace Font

theorem plain_swiftType (f : Font) : Plain f.swiftType := by
  unfold swiftType
  split <;> exact plain_literal (by decide)

theorem plain_familySwift {name : String} (h : Plain name) : Plain (familySwift (.named name)) :=
  plain_between (by decide) h

theorem plain_weightSwift (weight : Option FontWeight) : Plain (weightSwift weight) := by
  cases weight with
  | none => exact plain_literal (by decide)
  | some w => cases w <;> exact plain_behind (by decide) (plain_literal (by decide))

theorem plain_traitSwift (t : FontTrait) : Plain (traitSwift t) := by
  have hname : Plain t.name := by
    cases t <;> exact plain_literal (by decide)
  exact plain_behind (by decide) (plain_firstUpper hname)

/-- The call of a font is plain if its arguments are. -/
theorem plain_callSwift {family : FontFamily} {size style : String}
    (hfamily : Plain (familySwift family)) (hsize : Plain size) (hstyle : Plain style)
    (weight : Option FontWeight) (traits : List FontTrait) (scalable : Bool) :
    Plain (callSwift family size style weight traits scalable) := by
  have htraits : Plain (", ".intercalate (traits.map traitSwift)) :=
    plain_intercalate (plain_literal (by decide))
      (List.forall_mem_map.2 fun t _ => plain_traitSwift t)
  have hscalable : Plain (if scalable then "true" else "false") := by
    cases scalable <;> exact plain_literal (by decide)
  unfold callSwift
  refine plain_append.2 ⟨plain_append.2 ⟨plain_append.2 ⟨?_, plain_literal (by decide)⟩,
    hscalable⟩, plain_literal (by decide)⟩
  refine plain_append.2 ⟨plain_append.2 ⟨plain_append.2 ⟨plain_append.2 ⟨?_,
    plain_literal (by decide)⟩, plain_weightSwift weight⟩, plain_literal (by decide)⟩, htraits⟩
  exact plain_append.2 ⟨plain_append.2 ⟨plain_append.2 ⟨plain_between (by decide) hfamily, hsize⟩,
    plain_literal (by decide)⟩, hstyle⟩

theorem plain_styleSwift {style : String} (h : Plain style) :
    Plain (Value.enums ++ "." ++ textStyleEnum ++ "." ++ style) :=
  plain_append.2 ⟨plain_append.2 ⟨plain_append.2 ⟨Value.plain_enums, plain_literal (by decide)⟩,
    plain_literal (by decide)⟩, h⟩

/-- A font is plain if the names in it are. -/
theorem plain_toSwift {f : Font} (h : f.PlainTexts) : Plain (f.toSwift Value.enums) := by
  have hnone : Plain "nil" := plain_literal (by decide)
  cases f with
  | symbol name => exact plain_between (by decide) h
  | sized family size weight traits =>
    refine plain_callSwift ?_ (plain_number size) hnone _ _ _
    cases family with
    | named name => exact plain_familySwift h
    | _ => exact hnone
  | styled family style weight traits =>
    obtain ⟨hfamily, hstyle⟩ : Plain (familySwift family) ∧ Plain style.name := by
      cases family with
      | named name => exact ⟨plain_familySwift h.1, h.2⟩
      | _ => exact ⟨hnone, h⟩
    exact plain_callSwift hfamily hnone (plain_styleSwift hstyle) _ _ _

end Font

theorem TimingFunction.plain_toSwift (f : TimingFunction) : Plain f.toSwift := by
  cases f with
  | named curve =>
    have hname : Plain curve.name := by
      cases curve <;> exact plain_literal (by decide)
    exact plain_between (by decide) hname
  | cubic x₁ y₁ x₂ y₂ =>
    refine plain_append.2 ⟨plain_append.2 ⟨?_, plain_number y₂⟩, plain_literal (by decide)⟩
    exact plain_labelled (by decide) x₂
      (plain_append.2 ⟨plain_between (by decide) (plain_number x₁), plain_number y₁⟩)

theorem RepeatCount.plain_toSwift (c : RepeatCount) : Plain c.toSwift := by
  cases c with
  | count n => exact plain_between (by decide) (plain_natText n)
  | infinite => exact plain_literal (by decide)

theorem AnimationValue.plain_toSwift (v : AnimationValue) : Plain v.toSwift := by
  obtain ⟨property, start, finish⟩ := v
  have hproperty : Plain property.name := by
    cases property <;> exact plain_literal (by decide)
  have hfrom : Plain ("." ++ property.name ++ "(from: ") := plain_between (by decide) hproperty
  cases start with
  | none =>
    exact plain_labelled (by decide) finish (plain_append.2 ⟨hfrom, plain_literal (by decide)⟩)
  | some x =>
    exact plain_labelled (by decide) finish
      (plain_append.2 ⟨hfrom, plain_between (by decide) (plain_number x)⟩)

theorem KeyFrame.plain_toSwift (k : KeyFrame) : Plain k.toSwift := by
  have hduration : Plain (durationSwift k.duration) := by
    unfold durationSwift
    split
    · split
      · exact plain_number _
      · exact plain_literal (by decide)
    · exact plain_literal (by decide)
  have hvalues : Plain (", ".intercalate (k.values.map AnimationValue.toSwift)) :=
    plain_intercalate (plain_literal (by decide))
      (List.forall_mem_map.2 fun v _ => v.plain_toSwift)
  refine plain_append.2 ⟨plain_append.2 ⟨plain_append.2 ⟨plain_append.2 ⟨?_, hduration⟩,
    plain_literal (by decide)⟩, hvalues⟩, plain_literal (by decide)⟩
  exact plain_between (by decide) (plain_number k.startTime)

theorem Color.plain_toSwift (c : Color) : Plain c.toSwift := by
  refine plain_labelled (by decide) c.alpha (plain_append.2 ⟨?_, plain_number c.blue⟩)
  exact plain_append.2 ⟨plain_append.2 ⟨plain_between (by decide) (plain_number c.red),
    plain_number c.green⟩, plain_literal (by decide)⟩

/-! ## Values -/

namespace Value

mutual

/-- The texts that a value gives are plain: names, paths, and the expression of a call as it is
looked up. -/
def PlainTexts (manager : Option String) : Value → Prop
  | font f => f.PlainTexts
  | namedColor name => Plain name
  | image name => Plain name
  | icon name => Plain name
  | redirect r => Plain r.path ∧ ∀ t ∈ r.resolved, Plain t.access ∧ Plain t.type
  | conditional branches => PlainBranches manager branches
  | enumDef type _ => Plain type
  | enumCase type name => Plain type ∧ Plain name
  | optionDef type _ => Plain type
  | optionSet type names => Plain type ∧ ∀ n ∈ names, Plain n
  | array items => PlainItems manager items
  | call expression type => Plain (callSwift manager expression) ∧ Plain type
  | _ => True

/-- The texts in all items of an array are plain. -/
def PlainItems (manager : Option String) : List Value → Prop
  | [] => True
  | v :: vs => PlainTexts manager v ∧ PlainItems manager vs

/-- The texts in the values of all branches are plain. -/
def PlainBranches (manager : Option String) : List (Condition × Value) → Prop
  | [] => True
  | (_, v) :: bs => PlainTexts manager v ∧ PlainBranches manager bs

end

variable {manager : Option String}

/-- The branches of a value are plain if each of their values is. -/
theorem plainBranches_iff {branches : List (Condition × Value)} :
    PlainBranches manager branches ↔ ∀ b ∈ branches, b.2.PlainTexts manager := by
  induction branches with
  | nil => simp [PlainBranches]
  | cons b bs ih => rw [PlainBranches, ih, List.forall_mem_cons]

/-- The type of an array is plain if the types of its items are. -/
theorem plain_arrayType {types : List String} (h : ∀ t ∈ types, Plain t) :
    Plain (arrayType types) := by
  cases types with
  | nil => exact plain_literal (by decide)
  | cons t ts =>
    rw [arrayType]
    split
    · exact plain_between (by decide) (h t List.mem_cons_self)
    · exact plain_literal (by decide)

theorem plain_member {type name : String} (htype : Plain type) (hname : Plain name) :
    Plain (enums ++ "." ++ type ++ "." ++ name) :=
  plain_append.2 ⟨plain_append.2 ⟨plain_append.2 ⟨plain_enums, htype⟩, plain_literal (by decide)⟩,
    hname⟩

mutual

/-- The type of a plain value is plain. -/
theorem plain_swiftType : (v : Value) → v.PlainTexts manager → Plain v.swiftType
  | font f, _ => f.plain_swiftType
  | redirect ⟨_, none⟩, _ => (plain_literal (by decide) : Plain "Any")
  | redirect ⟨_, some t⟩, h => (h.2 t rfl).2
  | conditional branches, h => plain_firstBranchType branches h
  | enumDef _ _, h | optionDef _ _, h => h
  | enumCase _ _, h | optionSet _ _, h => plain_append.2 ⟨plain_enums, h.1⟩
  | array items, h => plain_arrayType (plain_itemTypes items h)
  | call _ _, h => h.2
  | int _, _ | float _, _ | bool _, _ | point _ _, _ | size _ _, _ | rect _ _ _ _, _
  | edgeInsets _ _ _ _, _ | color _, _ | namedColor _, _ | image _, _ | icon _, _ | timing _, _
  | keyFrame _, _ | animationValue _, _ | repeatCount _, _ => plain_literal (by decide)

theorem plain_itemTypes : (vs : List Value) → PlainItems manager vs →
    ∀ t ∈ itemTypes vs, Plain t
  | [], _ => nofun
  | v :: vs, h => List.forall_mem_cons.2 ⟨plain_swiftType v h.1, plain_itemTypes vs h.2⟩

theorem plain_firstBranchType : (bs : List (Condition × Value)) → PlainBranches manager bs →
    Plain (firstBranchType bs)
  | [], _ => plain_literal (by decide)
  | (_, v) :: _, h => plain_swiftType v h.1

end

mutual

/-- The expression of a plain value is plain. -/
theorem plain_toSwift : (v : Value) → v.PlainTexts manager → Plain (v.toSwift manager)
  | int n, _ => plain_between (by decide) (plain_intText n)
  | float x, _ => plain_between (by decide) (plain_number x)
  | bool true, _ | bool false, _ => plain_literal (by decide)
  | point x y, _ | size x y, _ =>
    plain_labelled (by decide) y (plain_behind (by decide) (plain_number x))
  | rect x y width height, _ | edgeInsets x y width height, _ =>
    plain_labelled (by decide) height <| plain_append.2 ⟨plain_append.2 ⟨plain_append.2
      ⟨plain_between (by decide) (plain_number x), plain_number y⟩, plain_literal (by decide)⟩,
      plain_number width⟩
  | color c, _ => c.plain_toSwift
  | font _, h => Font.plain_toSwift h
  | namedColor _, h | image _, h => plain_between (by decide) h
  | icon _, h => plain_behind (by decide) h
  | redirect ⟨_, none⟩, h => plain_append.2 ⟨h.1, plain_literal (by decide)⟩
  | redirect ⟨_, some t⟩, h => plain_append.2 ⟨(h.2 t rfl).1, plain_literal (by decide)⟩
  | conditional branches, h => plain_firstBranchSwift branches h
  | enumDef _ _, h | optionDef _ _, h => plain_append.2 ⟨plain_enums, h⟩
  | enumCase _ _, h => plain_member h.1 (plain_identifier h.2)
  | optionSet _ _, h =>
    plain_between (by decide) <| plain_intercalate (plain_literal (by decide))
      (List.forall_mem_map.2 fun n hn => plain_member h.1 (h.2 n hn))
  | timing f, _ => f.plain_toSwift
  | keyFrame k, _ => k.plain_toSwift
  | animationValue v, _ => v.plain_toSwift
  | repeatCount c, _ => c.plain_toSwift
  | array items, h =>
    plain_between (by decide) <|
      plain_intercalate (plain_literal (by decide)) (plain_itemsSwift items h)
  | call _ _, h => h.1

theorem plain_itemsSwift : (vs : List Value) → PlainItems manager vs →
    ∀ s ∈ itemsSwift manager vs, Plain s
  | [], _ => nofun
  | v :: vs, h => List.forall_mem_cons.2 ⟨plain_toSwift v h.1, plain_itemsSwift vs h.2⟩

theorem plain_firstBranchSwift : (bs : List (Condition × Value)) → PlainBranches manager bs →
    Plain (firstBranchSwift manager bs)
  | [], _ => plain_literal (by decide)
  | (_, v) :: _, h => plain_toSwift v h.1

end

end Value

/-! ## Styles -/

/-- The names that a style gives to its class and that are known of it are plain. -/
structure StyleHead.PlainNames (h : StyleHead) : Prop where
  name : Plain h.name
  overrideName : ∀ stem ∈ h.overrideName, Plain stem
  viewClass : Plain h.viewClass
  inherits : ∀ type ∈ h.inherits, Plain type
  accessorType : ∀ type ∈ h.accessorType, Plain type

namespace StyleHead.PlainNames

variable {h : StyleHead} (hh : h.PlainNames)

include hh

theorem classStem : Plain h.classStem := by
  unfold StyleHead.classStem
  cases hname : h.overrideName with
  | none => exact hh.name
  | some stem => exact hh.overrideName stem hname

theorem className : Plain h.className := by
  refine plain_append.2 ⟨hh.classStem, ?_⟩
  split <;> exact plain_literal (by decide)

theorem accessor : Plain (h.accessorType.getD h.className) := by
  cases htype : h.accessorType with
  | none => exact hh.className
  | some type => exact hh.accessorType type htype

end StyleHead.PlainNames

namespace Style

mutual

/-- The names, keys and values of a style are plain, at every depth. -/
def PlainTexts (manager : Option String) : Style → Prop
  | mk head properties => head.PlainNames ∧ PlainTextsIn manager properties

/-- The keys, values and nested styles of properties have plain texts. -/
def PlainTextsIn (manager : Option String) : List Property → Prop
  | [] => True
  | .leaf head value :: ps =>
    (Plain head.key ∧ value.PlainTexts manager) ∧ PlainTextsIn manager ps
  | .nested _ style :: ps => PlainTexts manager style ∧ PlainTextsIn manager ps

end

end Style

end Appearance
