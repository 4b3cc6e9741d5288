import Mathlib.Data.List.Nodup
import Mathlib.Data.List.Perm.Basic
import Appearance.Font.Parse
import Appearance.Proofs.Order
import Appearance.Proofs.Measures

/-!
# Weights and traits of fonts

A modifier is a weight, or traits joined by dashes (`Font.IsModifier`). What modifiers add to a face
is the sum of what each one adds (`Font.Face.gains_of_modifyAll`), and they are accepted together if
each of them is and there is one weight at most (`Font.Face.modifyAll_isOk_iff`); neither depends on
their order. The text `bold` is a weight where it stands alone and a trait where it is joined.

Whether any of the texts is a size decides how the text before the modifiers is read. No modifier is
a size (`Font.isSize_eq_false`), so for fonts that are accepted that text alone decides
(`Font.parseFace_eq_ok_iff`), and the rest is the same in any order (`Font.parse_any_order`).

Texts of a font are divided into those in front and the modifiers behind them, and only the latter
may change their order. A face is compared by what it gained: a weight from one of the modifiers
and the traits of all, as sets, since a trait that comes twice is kept once. The word `bold` shows
why a modifier is taken as a whole; split at the dash it would mean something else.
-/

namespace Appearance

open Appearance.Text

namespace Text

/-- A front part of a text keeps its first character if the text does. -/
theorem dropWhile_of_prefix {p : Char → Bool} {c : Char} {cs front : List Char}
    (hfront : front <+: c :: cs) (hc : p c = false) : front.dropWhile p = front := by
  obtain ⟨rest, hrest⟩ := hfront
  cases front with
  | nil => rfl
  | cons d front =>
    obtain ⟨rfl, -⟩ := List.cons.inj hrest
    exact List.dropWhile_cons_of_neg (by rw [hc]; exact Bool.false_ne_true)

end Text

/-! ## Texts that are no sizes -/

namespace Dimension

/-- A text that begins with neither white space, a quote, nor a character of a number. -/
def BeginsWord (cs : List Char) : Prop :=
  ∃ c rest, cs = c :: rest ∧ isBlank c = false ∧ isQuote c = false ∧ c.isDigit = false ∧
    c ∉ ['+', '-', '.']

theorem BeginsWord.append {cs : List Char} (h : BeginsWord cs) (cs' : List Char) :
    BeginsWord (cs ++ cs') := by
  obtain ⟨c, rest, rfl, hc⟩ := h
  exact ⟨c, rest ++ cs', rfl, hc⟩

instance : DecidablePred BeginsWord
  | [] => .isFalse nofun
  | c :: rest => decidable_of_iff (isBlank c = false ∧ isQuote c = false ∧ c.isDigit = false ∧
      c ∉ ['+', '-', '.']) ⟨fun h => ⟨c, rest, rfl, h⟩, fun ⟨_, _, h, hc⟩ => by cases h; exact hc⟩

/-- Of a text that begins like a word only the end is dropped. -/
theorem dropUnit_unquoted {cs : List Char} (h : BeginsWord cs) :
    dropUnit (unquoted cs) <+: cs := by
  obtain ⟨c, rest, rfl, hblank, hquote, -, -⟩ := h
  have htrim : ∀ {front : List Char}, front <+: c :: rest → trimChars front <+: c :: rest := by
    intro front hfront
    rw [trimChars, trimStartChars, dropWhile_of_prefix hfront hblank]
    exact (List.rdropWhile_prefix isBlank front).trans hfront
  have htext := htrim List.prefix_rfl
  have hunquoted : unquoted (c :: rest) <+: c :: rest := by
    rw [unquoted, dropWhile_of_prefix htext hquote]
    exact htrim ((List.rdropWhile_prefix isQuote _).trans htext)
  obtain ⟨gap, unit, -, -, hunit⟩ := exists_dropUnit (unquoted (c :: rest))
  have hbody : dropUnit (unquoted (c :: rest)) <+: unquoted (c :: rest) := ⟨_, hunit.symm⟩
  exact hbody.trans hunquoted

/-- What begins a word is no number. -/
theorem isNumeric_eq_false {cs front : List Char} (h : BeginsWord cs) (hfront : front <+: cs) :
    isNumeric front = false := by
  obtain ⟨c, rest, rfl, -, -, hdigit, hmark⟩ := h
  simp only [List.mem_cons, List.not_mem_nil, or_false, not_or] at hmark
  obtain ⟨hplus, hminus, hpoint⟩ := hmark
  obtain ⟨behind, hbehind⟩ := hfront
  cases front with
  | nil => rfl
  | cons d front =>
    obtain ⟨rfl, -⟩ := List.cons.inj hbehind
    have hsplit : splitSign (d :: front) = (false, d :: front) :=
      Sign.none.splitSign_append hplus hminus front
    rw [isNumeric, hsplit, numericFrom, if_neg (by simp [hdigit]), if_neg (by simp [hpoint])]

/-- A text that begins like a word is no dimension. -/
theorem parse?_eq_none {s : String} (h : BeginsWord s.toList) : parse? s = none := by
  have hnumeric := isNumeric_eq_false h (dropUnit_unquoted h)
  rw [parse?, parseChars?]
  exact if_neg (by rw [hnumeric]; exact Bool.false_ne_true)

end Dimension

namespace Font

/-! ## Modifiers -/

/-- The texts between the dashes of a modifier. -/
def modifierParts (m : String) : List String :=
  (splitAtChars (· == '-') m.toList).map String.ofList

/-- A weight, or traits joined by dashes. -/
def IsModifier (m : String) : Prop :=
  (FontWeight.ofName? m).isSome = true ∨
    ∀ name ∈ modifierParts m, (FontTrait.ofName? name).isSome = true

/-- The weights that modifiers name. -/
def weightsOf (ms : List String) : List FontWeight := ms.filterMap FontWeight.ofName?

/-- The traits that a modifier names, if it names no weight. -/
def traitsIn (m : String) : List FontTrait :=
  if (FontWeight.ofName? m).isSome then [] else (modifierParts m).filterMap FontTrait.ofName?

/-- The traits that modifiers name. -/
def traitsOf (ms : List String) : List FontTrait := ms.flatMap traitsIn

/-- The second face has the weights and traits of the first one and some more. A face has at most
one weight, so there is none more if the first one has one. -/
structure Face.Gains (f g : Face) (weights : List FontWeight) (traits : List FontTrait) : Prop where
  weight : g.weight.toList = f.weight.toList ++ weights
  mem_traits : ∀ t, t ∈ g.traits ↔ t ∈ f.traits ∨ t ∈ traits
  nodup : f.traits.Nodup → g.traits.Nodup

namespace Face

variable {f g h : Face} {m : String} {ms ms' names : List String}

theorem Gains.refl (f : Face) : f.Gains f [] [] where
  weight := (List.append_nil _).symm
  mem_traits t := by simp
  nodup := id

theorem Gains.trans {ws ws' : List FontWeight} {ts ts' : List FontTrait} (hfg : f.Gains g ws ts)
    (hgh : g.Gains h ws' ts') : f.Gains h (ws ++ ws') (ts ++ ts') where
  weight := by rw [hgh.weight, hfg.weight, List.append_assoc]
  mem_traits t := by rw [hgh.mem_traits, hfg.mem_traits, List.mem_append, or_assoc]
  nodup := hgh.nodup ∘ hfg.nodup

/-- A trait is gained, and nothing else. -/
theorem gains_addTrait (f : Face) (t : FontTrait) : f.Gains (f.addTrait t) [] [t] := by
  unfold addTrait
  split
  · next hmem =>
    rw [List.contains_iff_mem] at hmem
    refine ⟨(List.append_nil _).symm, fun u => ?_, id⟩
    rw [List.mem_singleton]
    exact ⟨.inl, fun hu => hu.elim id fun heq => heq ▸ hmem⟩
  · next hmem =>
    rw [List.contains_iff_mem] at hmem
    exact ⟨(List.append_nil _).symm, fun u => List.mem_append, fun hnodup => nodup_snoc hnodup hmem⟩

/-- Traits are added if all of them are known. -/
theorem addTraits_isOk_iff :
    (∃ g, f.addTraits names = .ok g) ↔ ∀ name ∈ names, (FontTrait.ofName? name).isSome = true := by
  induction names generalizing f with
  | nil => simp [addTraits]
  | cons name names ih =>
    rw [List.forall_mem_cons, addTraits]
    cases FontTrait.ofName? name with
    | none => simp
    | some t => simpa using ih

/-- Of joined traits a face gains each one that is a trait. -/
theorem gains_of_addTraits (hg : f.addTraits names = .ok g) :
    f.Gains g [] (names.filterMap FontTrait.ofName?) := by
  induction names generalizing f with
  | nil =>
    cases hg
    exact .refl _
  | cons name names ih =>
    rw [addTraits] at hg
    split at hg
    · cases hg
    · next t ht =>
      rw [List.filterMap_cons_some ht]
      exact (f.gains_addTrait t).trans (ih hg)

/-- What one modifier adds. -/
theorem gains_of_modify (hg : f.modify m = .ok g) :
    f.Gains g (weightsOf [m]) (traitsIn m) := by
  unfold modify at hg
  split at hg
  · next w hw =>
    split at hg
    · cases hg
    · next hnone =>
      cases hg
      have hf : f.weight = none := by simpa using hnone
      rw [weightsOf, traitsIn, hw, Option.isSome_some, if_pos rfl, List.filterMap_cons_some hw]
      exact ⟨by rw [hf]; rfl, fun t => by simp, id⟩
  · next hw =>
    rw [weightsOf, traitsIn, hw, List.filterMap_cons_none hw]
    exact gains_of_addTraits hg

/-- A modifier is accepted unless it is unknown or names a second weight. -/
theorem modify_isOk_iff : (∃ g, f.modify m = .ok g) ↔
    IsModifier m ∧ (f.weight.toList ++ weightsOf [m]).length ≤ 1 := by
  unfold modify IsModifier weightsOf
  cases hw : FontWeight.ofName? m with
  | some w =>
    rw [List.filterMap_cons_some hw]
    cases f.weight <;> simp
  | none =>
    rw [List.filterMap_cons_none hw]
    refine addTraits_isOk_iff.trans ?_
    cases f.weight <;> simp [modifierParts]

/-- What modifiers add. -/
theorem gains_of_modifyAll (hg : f.modifyAll ms = .ok g) :
    f.Gains g (weightsOf ms) (traitsOf ms) := by
  induction ms generalizing f with
  | nil =>
    cases hg
    exact .refl _
  | cons m ms ih =>
    rw [modifyAll] at hg
    split at hg
    · next h hm =>
      have hgains := (gains_of_modify hm).trans (ih hg)
      rwa [weightsOf, weightsOf, ← List.filterMap_append] at hgains
    · cases hg

/-- Modifiers are accepted if each of them is one and there is at most one weight. -/
theorem modifyAll_isOk_iff : (∃ g, f.modifyAll ms = .ok g) ↔
    (∀ m ∈ ms, IsModifier m) ∧ (f.weight.toList ++ weightsOf ms).length ≤ 1 := by
  induction ms generalizing f with
  | nil => cases f.weight <;> simp [modifyAll, weightsOf]
  | cons m ms ih =>
    have hcons : weightsOf (m :: ms) = weightsOf [m] ++ weightsOf ms :=
      List.filterMap_append (l := [m])
    rw [List.forall_mem_cons, hcons, modifyAll]
    cases hm : f.modify m with
    | ok h =>
      obtain ⟨hmodifier, -⟩ := modify_isOk_iff.1 ⟨h, hm⟩
      dsimp only
      rw [ih, (gains_of_modify hm).weight, List.append_assoc]
      exact ⟨fun ⟨hall, hle⟩ => ⟨⟨hmodifier, hall⟩, hle⟩, fun ⟨⟨_, hall⟩, hle⟩ => ⟨hall, hle⟩⟩
    | error e =>
      refine ⟨nofun, fun ⟨⟨hmodifier, _⟩, hle⟩ => ?_⟩
      have hle' : (f.weight.toList ++ weightsOf [m]).length ≤ 1 := by
        simp only [List.length_append] at hle ⊢
        omega
      obtain ⟨g, hg⟩ := modify_isOk_iff.2 ⟨hmodifier, hle'⟩
      rw [hm] at hg
      cases hg

end Face

end Font

/-! ## Names of weights and traits -/

theorem FontWeight.eq_name_of_ofName? {name : String} {w : FontWeight}
    (h : ofName? name = some w) : name = w.name := by
  have hname := List.find?_some h
  exact (beq_iff_eq.1 hname).symm

theorem FontTrait.eq_name_of_ofName? {name : String} {t : FontTrait}
    (h : ofName? name = some t) : name = t.name := by
  have hname := List.find?_some h
  exact (beq_iff_eq.1 hname).symm

namespace Font

/-- A modifier begins like a word. -/
theorem beginsWord_of_isModifier {m : String} (h : IsModifier m) :
    Dimension.BeginsWord m.toList := by
  have hweights : ∀ w : FontWeight, Dimension.BeginsWord w.name.toList := by
    intro w
    cases w <;> decide
  have htraits : ∀ t : FontTrait, Dimension.BeginsWord t.name.toList := by
    intro t
    cases t <;> decide
  rcases h with hweight | hparts
  · obtain ⟨w, hw⟩ := Option.isSome_iff_exists.1 hweight
    exact FontWeight.eq_name_of_ofName? hw ▸ hweights w
  · have hpart : ∀ l ∈ splitAtChars (· == '-') m.toList, Dimension.BeginsWord l := by
      intro l hl
      obtain ⟨t, ht⟩ := Option.isSome_iff_exists.1 (hparts _ (List.mem_map_of_mem hl))
      rw [← String.toList_ofList (l := l), FontTrait.eq_name_of_ofName? ht]
      exact htraits t
    -- what stands before the first dash begins the text
    rcases splitAtChars_cases (· == '-') m.toList with hone | ⟨l, s, r, hm, -, hsplit⟩
    · exact hpart _ (hone ▸ List.mem_singleton_self _)
    · rw [hm]
      exact (hpart l (hsplit ▸ List.mem_cons_self)).append _

/-- No modifier is a size. -/
theorem isSize_eq_false {m : String} (h : IsModifier m) : isSize m = false := by
  rw [isSize, Dimension.parse?_eq_none (beginsWord_of_isModifier h)]
  rfl

/-! ## Modifiers in another order -/

/-- In another order the same modifiers are accepted, and give the same weight and traits. -/
theorem Face.exists_modifyAll_of_perm {f g : Face} {ms ms' : List String} (h : ms.Perm ms')
    (hf : f.traits.Nodup) (hg : f.modifyAll ms = .ok g) :
    ∃ g', f.modifyAll ms' = .ok g' ∧ g'.weight = g.weight ∧ g'.traits.Perm g.traits := by
  have hweights : (weightsOf ms).Perm (weightsOf ms') := h.filterMap _
  have htraits : (traitsOf ms).Perm (traitsOf ms') := h.flatMap_right _
  obtain ⟨hmodifiers, hle⟩ := modifyAll_isOk_iff.1 ⟨g, hg⟩
  obtain ⟨g', hg'⟩ : ∃ g', f.modifyAll ms' = .ok g' := modifyAll_isOk_iff.2
    ⟨fun m hm => hmodifiers m (h.mem_iff.2 hm), by
      rwa [List.length_append, ← hweights.length_eq, ← List.length_append]⟩
  have hgains := gains_of_modifyAll hg
  have hgains' := gains_of_modifyAll hg'
  refine ⟨g', hg', ?_, ?_⟩
  · have hperm : g'.weight.toList.Perm g.weight.toList := by
      rw [hgains.weight, hgains'.weight]
      exact (hweights.symm.append_left _)
    exact Option.ext fun w => by rw [← Option.mem_toList, ← Option.mem_toList, hperm.mem_iff]
  · refine (List.perm_ext_iff_of_nodup (hgains'.nodup hf) (hgains.nodup hf)).2 fun t => ?_
    rw [hgains.mem_traits, hgains'.mem_traits, htraits.mem_iff]

/-! ## Faces by name -/

/-- A text of a font names the weight: a modifier, or the name of a system font. -/
def NamesWeight (w : FontWeight) (arg : String) : Prop :=
  arg = w.name ∨ arg = "System-" ++ w.name

/-- A text of a font names the trait: a modifier that joins traits, or the name of a system font. -/
def NamesTrait (t : FontTrait) (arg : String) : Prop :=
  t.name ∈ modifierParts arg ∨ arg = "System" ++ firstUpper t.name

/-- The texts name the weight and the traits, and no trait is there twice. -/
structure Face.NamedBy (args : List String) (f : Face) : Prop where
  weight : ∀ w, f.weight = some w → w ∈ FontWeight.all ∧ ∃ arg ∈ args, NamesWeight w arg
  traits : ∀ t ∈ f.traits, t ∈ FontTrait.all ∧ ∃ arg ∈ args, NamesTrait t arg
  nodup : f.traits.Nodup

section NamedBy

variable {args : List String} {name : String} {family : FontFamily} {f g : Face}

theorem Face.namedBy_plain : Face.plain.NamedBy args where
  weight := nofun
  traits := nofun
  nodup := .nil

/-- The name of a family names what it implies. -/
theorem namedBy_of_parseFamily (h : parseFamily name = .ok (family, f)) (hname : name ∈ args) :
    f.NamedBy args := by
  unfold parseFamily at h
  split at h
  · cases h
    exact Face.namedBy_plain
  · cases h
    exact Face.namedBy_plain
  · cases h
    refine ⟨nofun, fun t ht => ?_, List.nodup_singleton _⟩
    cases List.mem_singleton.1 ht
    exact ⟨by decide, _, hname, .inr (by decide)⟩
  · cases h
    refine ⟨nofun, fun t ht => ?_, List.nodup_singleton _⟩
    cases List.mem_singleton.1 ht
    exact ⟨by decide, _, hname, .inr (by decide)⟩
  · split at h
    · cases h
      exact Face.namedBy_plain
    · next weight hstrip =>
      split at h
      · next w hw =>
        cases h
        refine ⟨fun u hu => ?_, nofun, .nil⟩
        cases hu
        refine ⟨List.mem_of_find?_eq_some hw, _, hname, .inr ?_⟩
        rw [eq_append_of_stripPrefix? hstrip, FontWeight.eq_name_of_ofName? hw]
      · cases h

/-- Modifiers name what they add. -/
theorem Face.NamedBy.modifyAll {ms : List String} (h : f.NamedBy args) (hms : ms ⊆ args)
    (hg : f.modifyAll ms = .ok g) : g.NamedBy args := by
  have hgains := gains_of_modifyAll hg
  refine ⟨fun w hw => ?_, fun t ht => ?_, hgains.nodup h.nodup⟩
  · rw [← Option.mem_toList, hgains.weight, List.mem_append] at hw
    rcases hw with hold | hnew
    · exact h.weight w (Option.mem_toList.1 hold)
    · obtain ⟨m, hm, hmw⟩ := List.mem_filterMap.1 hnew
      exact ⟨List.mem_of_find?_eq_some hmw, m, hms hm, .inl (FontWeight.eq_name_of_ofName? hmw)⟩
  · rw [hgains.mem_traits] at ht
    rcases ht with hold | hnew
    · exact h.traits t hold
    · obtain ⟨m, hm, hmt⟩ := List.mem_flatMap.1 hnew
      unfold traitsIn at hmt
      split at hmt
      · cases hmt
      · obtain ⟨part, hpart, ht⟩ := List.mem_filterMap.1 hmt
        exact ⟨List.mem_of_find?_eq_some ht, m, hms hm,
          .inl (FontTrait.eq_name_of_ofName? ht ▸ hpart)⟩

end NamedBy

/-! ## Families, sizes and text styles -/

/-- Weight and traits of a font that is no symbol. -/
def face? : Font → Option Face
  | symbol _ => none
  | sized _ _ weight traits => some ⟨weight, traits⟩
  | styled _ _ weight traits => some ⟨weight, traits⟩

/-- The text style of a font that has one. -/
def style? : Font → Option TextStyle
  | styled _ style _ _ => some style
  | _ => none

/-- The fonts have the same family, size or text style, and weight, and the same traits. -/
inductive SameButOrder : Font → Font → Prop
  | sized {family : FontFamily} {size : Double} {weight : Option FontWeight}
      {traits traits' : List FontTrait} (h : traits.Perm traits') :
      SameButOrder (sized family size weight traits) (sized family size weight traits')
  | styled {family : FontFamily} {style : TextStyle} {weight : Option FontWeight}
      {traits traits' : List FontTrait} (h : traits.Perm traits') :
      SameButOrder (styled family style weight traits) (styled family style weight traits')

end Font

/-- A text style is of the typography, or built in. -/
def TextStyle.IsKnown (typography : List String) : TextStyle → Prop
  | custom name => name ∈ typography
  | builtin name => name ∈ builtinTextStyles

/-- A text style that is found is one of the platform or of the settings. -/
theorem TextStyle.isKnown_of_find? {typography : List String} {name : String} {style : TextStyle}
    (h : find? typography name = some style) : style.IsKnown typography := by
  unfold find? at h
  split at h
  · next hmem =>
    cases h
    exact List.contains_iff_mem.1 hmem
  · split at h
    · next hmem =>
      cases h
      exact List.contains_iff_mem.1 hmem
    · cases h

namespace Font

section Typography

variable {typography : List String} {family : FontFamily} {face : Face} {hasSize : Bool}
  {selector : Option String} {first : String} {rest args ms ms' : List String} {f : Font}

/-- Which size or text style a font has does not depend on its weight and traits. -/
theorem select_cases (h : select typography family face hasSize selector = .ok f) :
    (∃ size, ∀ g, select typography family g hasSize selector =
      .ok (.sized family size g.weight g.traits)) ∨
    ∃ style : TextStyle, style.IsKnown typography ∧
      ∀ g, select typography family g hasSize selector =
        .ok (.styled family style g.weight g.traits) := by
  unfold select at h ⊢
  cases hasSize with
  | true =>
    simp only [if_true] at h ⊢
    cases hsize : selector.bind Dimension.parse? with
    | none => simp [hsize] at h
    | some size => exact .inl ⟨size, fun g => rfl⟩
  | false =>
    simp only [Bool.false_eq_true, if_false] at h ⊢
    cases selector with
    | none =>
      dsimp only at h ⊢
      split at h
      · next hfamily =>
        have hbody : "body" ∈ builtinTextStyles := by decide
        exact .inr ⟨.builtin "body", hbody, fun g => if_pos hfamily⟩
      · cases h
    | some name =>
      dsimp only at h ⊢
      cases hstyle : TextStyle.find? typography name with
      | none => simp [hstyle] at h
      | some style => exact .inr ⟨style, TextStyle.isKnown_of_find? hstyle, fun g => rfl⟩

/-- With a size or text style behind the family, fonts are accepted if modifiers follow. -/
theorem parseFace_eq_ok_iff {s : String}
    (h : splitFamily typography first rest = .ok (family, face, s :: ms)) :
    parseFace typography first rest = .ok f ↔ ∃ g, face.modifyAll ms = .ok g ∧
      select typography family g (isSize s) (some s) = .ok f := by
  rw [parseFace, h]
  dsimp only
  rw [List.tail_cons, List.head?_cons, List.any_cons]
  cases hg : face.modifyAll ms with
  | error e => simp
  | ok g =>
    -- what was accepted as modifiers holds no size, so only the text before can be one
    obtain ⟨hmodifiers, -⟩ := Face.modifyAll_isOk_iff.1 ⟨g, hg⟩
    have hnone : ms.any isSize = false :=
      List.any_eq_false.2 fun m hm => by simp [isSize_eq_false (hmodifiers m hm)]
    simp [hnone]

/-- All that follows these texts are modifiers: a size or text style is among them, or they are two
and so leave room for no family. -/
def Heads (typography front : List String) : Prop :=
  (∃ s ∈ front, isSelector typography s = true) ∨ 2 ≤ front.length

/-- Texts that head modifiers determine the family and the text behind it. -/
theorem splitFamily_append {front : List String} (h : Heads typography (first :: front)) :
    (∃ e, ∀ ms, splitFamily typography first (front ++ ms) = .error e) ∨
    ∃ family face s mid, Face.NamedBy [first] face ∧ ∀ ms,
      splitFamily typography first (front ++ ms) = .ok (family, face, s :: (mid ++ ms)) := by
  unfold splitFamily
  by_cases hfirst : isSelector typography first = true
  · simp only [if_pos hfirst]
    exact .inr ⟨_, _, first, front, Face.namedBy_plain, fun ms => rfl⟩
  · simp only [if_neg hfirst]
    cases front with
    | nil =>
      rcases h with ⟨s, hs, hselector⟩ | hlength
      · exact absurd (List.mem_singleton.1 hs ▸ hselector) hfirst
      · exact absurd hlength (by simp)
    | cons s mid =>
      cases hfamily : parseFamily first with
      | error e => exact .inl ⟨e, fun ms => rfl⟩
      | ok p =>
        have hnamed := namedBy_of_parseFamily hfamily (List.mem_singleton_self first)
        exact .inr ⟨_, _, s, mid, hnamed, fun ms => rfl⟩

/-- Modifiers in another order give the same font. -/
theorem exists_parseFace_of_perm {front : List String} (h : Heads typography (first :: front))
    (hms : ms.Perm ms') (hf : parseFace typography first (front ++ ms) = .ok f) :
    ∃ f', parseFace typography first (front ++ ms') = .ok f' ∧ SameButOrder f f' := by
  rcases splitFamily_append h with ⟨e, herror⟩ | ⟨family, face, s, mid, hnamed, hsplit⟩
  · rw [parseFace, herror] at hf
    cases hf
  · obtain ⟨g, hg, hselect⟩ := (parseFace_eq_ok_iff (hsplit ms)).1 hf
    obtain ⟨g', hg', hweight, htraits⟩ :=
      Face.exists_modifyAll_of_perm (hms.append_left mid) hnamed.nodup hg
    have hparse : ∀ {f'}, select typography family g' (isSize s) (some s) = .ok f' →
        parseFace typography first (front ++ ms') = .ok f' :=
      fun hf' => (parseFace_eq_ok_iff (hsplit ms')).2 ⟨g', hg', hf'⟩
    rcases select_cases hselect with ⟨size, hsized⟩ | ⟨style, -, hstyled⟩
    · cases (hsized g).symm.trans hselect
      exact ⟨_, hparse (hsized g'), hweight ▸ .sized htraits.symm⟩
    · cases (hstyled g).symm.trans hselect
      exact ⟨_, hparse (hstyled g'), hweight ▸ .styled htraits.symm⟩

/-- Texts with a head are no symbol. -/
theorem parse_append {front : List String} (h : Heads typography (first :: front)) :
    parse typography (first :: (front ++ ms)) =
      if 4 < (front ++ ms).length + 1 then .error (.tooManyArguments ((front ++ ms).length + 1))
      else parseFace typography first (front ++ ms) := by
  have hsymbol : ((front ++ ms).isEmpty && isSymbolName typography first) = false := by
    cases front with
    | cons s mid => rfl
    | nil =>
      rcases h with ⟨s, hs, hselector⟩ | hlength
      · rw [isSymbolName, ← List.mem_singleton.1 hs, hselector]
        simp
      · exact absurd hlength (by simp)
  rw [parse, hsymbol, if_neg Bool.false_ne_true]

/-- Modifiers behind their head in another order give the same font. -/
theorem exists_parse_of_perm {front : List String} (h : Heads typography front)
    (hms : ms.Perm ms') (hf : parse typography (front ++ ms) = .ok f) :
    ∃ f', parse typography (front ++ ms') = .ok f' ∧ SameButOrder f f' := by
  cases front with
  | nil => simp [Heads] at h
  | cons first front =>
    have hlength : (front ++ ms).length = (front ++ ms').length :=
      (hms.append_left front).length_eq
    rw [List.cons_append, parse_append h] at hf ⊢
    rw [← hlength]
    split at hf
    · cases hf
    · next hle =>
      rw [if_neg hle]
      exact exists_parseFace_of_perm h hms hf

/-- The texts of a font with a family name its face. -/
theorem namedBy_of_splitFamily
    (h : splitFamily typography first rest = .ok (family, face, args)) :
    face.NamedBy (first :: rest) ∧ args ⊆ first :: rest := by
  unfold splitFamily at h
  split at h
  · cases h
    exact ⟨Face.namedBy_plain, List.Subset.refl _⟩
  · split at h
    · next hfamily =>
      cases h
      exact ⟨namedBy_of_parseFamily hfamily List.mem_cons_self, List.subset_cons_self _ _⟩
    · cases h

/-- A font that is read has a face that its arguments name. -/
theorem exists_of_parseFace (h : parseFace typography first rest = .ok f) :
    ∃ g, f.face? = some g ∧ g.NamedBy (first :: rest) ∧
      ∀ style ∈ f.style?, style.IsKnown typography := by
  unfold parseFace at h
  split at h
  · cases h
  · next family face texts hsplit =>
    split at h
    · cases h
    · next g hg =>
      obtain ⟨hnamed, htexts⟩ := namedBy_of_splitFamily hsplit
      have hface := hnamed.modifyAll (List.Subset.trans (List.tail_subset texts) htexts) hg
      rcases select_cases h with ⟨size, hsized⟩ | ⟨style, hknown, hstyled⟩
      · cases (hsized g).symm.trans h
        exact ⟨g, rfl, hface, nofun⟩
      · cases (hstyled g).symm.trans h
        exact ⟨g, rfl, hface, fun _ hstyle => Option.some.inj hstyle ▸ hknown⟩

/-- The texts of a font that is no symbol name its weight and traits. -/
theorem exists_of_parse (h : parse typography args = .ok f) (hsymbol : f.isSymbol = false) :
    ∃ g, f.face? = some g ∧ g.NamedBy args ∧ ∀ style ∈ f.style?, style.IsKnown typography := by
  cases args with
  | nil => cases h
  | cons first rest =>
    rw [parse] at h
    split at h
    · cases h
      cases hsymbol
    · split at h
      · cases h
      · exact exists_of_parseFace h

/-- A font that is no symbol has the weight and the traits that its texts name, each trait once, and
a known text style. In whatever order the modifiers stand, either there is no font or it is the same
up to the order of its traits. -/
theorem parse_any_order (typography : List String) :
    (∀ args f, parse typography args = .ok f → f.isSymbol = false →
      ∃ g, f.face? = some g ∧ g.NamedBy args ∧ ∀ style ∈ f.style?, style.IsKnown typography) ∧
    ∀ front ms ms', Heads typography front → ms.Perm ms' →
      (∃ f f', parse typography (front ++ ms) = .ok f ∧ parse typography (front ++ ms') = .ok f' ∧
        SameButOrder f f') ∨
      ∃ e e', parse typography (front ++ ms) = .error e ∧
        parse typography (front ++ ms') = .error e' := by
  refine ⟨fun args f => exists_of_parse, fun front ms ms' hfront hms => ?_⟩
  cases hf : parse typography (front ++ ms) with
  | ok f =>
    obtain ⟨f', hf', hsame⟩ := exists_parse_of_perm hfront hms hf
    exact .inl ⟨f, f', rfl, hf', hsame⟩
  | error e =>
    cases hf' : parse typography (front ++ ms') with
    | ok f' =>
      -- the first order would be accepted too
      obtain ⟨f, hf₁, -⟩ := exists_parse_of_perm hfront hms.symm hf'
      rw [hf] at hf₁
      cases hf₁
    | error e' => exact .inr ⟨e, e', rfl, rfl⟩

end Typography

/-- A modifier with a dash and a weight behind a text style can be exchanged. -/
theorem parse_any_order_heavy :
    let args := ["Helvetica", "display", "bold-italic", "heavy"]
    let f := styled (.named "Helvetica") (.custom "display") (some .heavy) [.bold, .italic]
    parse ["display"] args = .ok f ∧ f.isSymbol = false ∧ (∃ g, f.face? = some g ∧
      g.NamedBy args ∧ ∀ style ∈ f.style?, style.IsKnown ["display"]) ∧
    Heads ["display"] ["Helvetica", "display"] ∧
    ["bold-italic", "heavy"].Perm ["heavy", "bold-italic"] ∧
    ∃ f', parse ["display"] ["Helvetica", "display", "heavy", "bold-italic"] = .ok f' ∧
      SameButOrder f f' := by
  intro args f
  have hf : parse ["display"] args = .ok f := by decide
  have hfront : Heads ["display"] ["Helvetica", "display"] := .inr (by decide)
  have hperm : ["bold-italic", "heavy"].Perm ["heavy", "bold-italic"] := .swap ..
  obtain ⟨hface, horder⟩ := parse_any_order ["display"]
  refine ⟨hf, rfl, hface args f hf rfl, hfront, hperm, ?_⟩
  rcases horder _ _ _ hfront hperm with ⟨f₁, f', hf₁, hf', hsame⟩ | ⟨e, e', he, -⟩
  · cases hf.symm.trans hf₁
    exact ⟨f', hf', hsame⟩
  · cases hf.symm.trans he

end Font

end Appearance
