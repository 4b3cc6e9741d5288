import Appearance.Proofs.Classes
import Appearance.Proofs.Fresh

/-!
# What classes are called

The class of a style is called by the name of the style, unless it overrides another one. Then its
name begins with that of the stylesheet, or with the stem of the class around it
(`Style.NestedStemmed`), and the accessor has the type of the one that it overrides. All styles of
a prepared suite are named in this way (`Prepares.stemmed`). A capital letter brings no point, brace
or line break into a name (`Text.mem_of_mem_firstUpper`) and leaves none empty
(`Text.firstUpper_eq_empty`).

A class name can be made of several names, and to tell two class names apart one has to know how.
`Stemmed` gives the two cases for a head, and `NestedStemmed` passes the stem down. The section on
capital letters is there because a stem is capitalized when it is put behind another one: what is
asked of names, that they have no points or braces and are not empty, has to survive this.
-/

namespace Appearance

open Appearance.Text

/-! ## Capital letters -/

namespace Text

theorem mem_upperExpansions {n : Nat} {codes : List Nat}
    (h : upperExpansions.lookup n = some codes) : (n, codes) ∈ upperExpansions := by
  obtain ⟨before, after, heq, -⟩ := List.lookup_eq_some_iff.1 h
  rw [heq]
  exact List.mem_append_right _ List.mem_cons_self

/-- Characters that are the upper case of no other one. -/
def uncased : List Char := ['.', '\n', '\x7b', '\x7d']

/-- A number that gives one of these characters is its code point. -/
theorem toNat_of_ofNat_eq {n : Nat} {d : Char} (hd : d ∈ uncased) (h : Char.ofNat n = d) :
    n = d.toNat := by
  by_cases hn : n.isValidChar
  · have hcode : Char.ofNatAux n hn = d := (dif_pos hn).symm.trans h
    exact congrArg Char.toNat hcode
  · have hzero : Char.ofNat n = Char.ofNat 0 := dif_neg hn
    rw [← h, hzero] at hd
    exact absurd hd (by decide)

theorem eq_of_toUpper {c d : Char} (hd : d ∈ uncased) (hc : c.toNat < 128) (h : c.toUpper = d) :
    c = d := by
  have hall : ∀ n < 128, ∀ d ∈ uncased, (Char.ofNat n).toUpper = d → Char.ofNat n = d := by decide
  have := hall c.toNat hc d hd
  rw [Char.ofNat_toNat] at this
  exact this h

/-- A point, a brace and a line break are in the capital form of no other character. -/
theorem eq_of_mem_upperChars {c d : Char} (hd : d ∈ uncased) (h : d ∈ upperChars c) : c = d := by
  unfold upperChars at h
  split at h
  · next hascii => exact eq_of_toUpper hd hascii (List.mem_singleton.1 h).symm
  · next hascii =>
    split at h
    · next codes hcodes =>
      obtain ⟨n, hn, hcode⟩ := List.mem_map.1 h
      have hall : ∀ e ∈ upperExpansions, ∀ n ∈ e.2, ∀ d ∈ uncased, n ≠ d.toNat := by
        decide +kernel
      exact absurd (toNat_of_ofNat_eq hd hcode)
        (hall _ (mem_upperExpansions hcodes) n hn d hd)
    · -- no range is shifted over one of the characters, and the rest stays as it is
      have hcode := toNat_of_ofNat_eq hd (List.mem_singleton.1 h).symm
      unfold shiftIn at hcode
      split at hcode
      · next r hr =>
        have hall : ∀ r ∈ upperRanges, ∀ d ∈ uncased,
            (d.toNat : Int) < r.first + r.shift ∨ r.last + r.shift < (d.toNat : Int) := by
          decide +kernel
        have hshift := hall r (List.mem_of_find?_eq_some hr) d hd
        have hhas := List.find?_some hr
        simp only [CaseRange.has, Bool.and_eq_true, decide_eq_true_eq] at hhas
        have hfirst := hhas.1.1
        have hlast := hhas.1.2
        have hpos : ∀ d ∈ uncased, 0 < d.toNat := by decide
        have := hpos d hd
        omega
      · have hsame : c.toNat = d.toNat := by omega
        rw [← Char.ofNat_toNat c, hsame, Char.ofNat_toNat]

/-- These characters stand in a capitalized name only if they stood in the name. -/
theorem mem_of_mem_firstUpper {s : String} {d : Char} (hd : d ∈ uncased)
    (h : d ∈ (firstUpper s).toList) : d ∈ s.toList := by
  unfold firstUpper at h
  split at h
  · cases h
  · next c cs hs =>
    rw [String.toList_ofList, List.mem_append] at h
    rw [hs, List.mem_cons]
    exact h.imp (fun hc => (eq_of_mem_upperChars hd hc).symm) id

theorem upperChars_ne_nil (c : Char) : upperChars c ≠ [] := by
  unfold upperChars
  split
  · exact List.cons_ne_nil _ _
  · split
    · next codes hcodes =>
      have hall : ∀ e ∈ upperExpansions, e.2 ≠ [] := by decide +kernel
      simpa using hall _ (mem_upperExpansions hcodes)
    · exact List.cons_ne_nil _ _

/-- Capitalizing leaves no name empty but the empty one. -/
theorem firstUpper_eq_empty {s : String} : firstUpper s = "" ↔ s = "" := by
  constructor
  · intro h
    unfold firstUpper at h
    split at h
    · next hs => exact String.toList_eq_nil_iff.1 hs
    · next c cs hs =>
      have hnil := congrArg String.toList h
      rw [String.toList_ofList] at hnil
      exact absurd (List.append_eq_nil_iff.1 hnil).1 (upperChars_ne_nil c)
  · rintro rfl
    rfl

end Text

/-! ## Stems -/

namespace StyleHead

/-- The class is called by the name, and the accessor has the type of the class, unless it overrides
another one; then the class has the given stem. -/
structure Stemmed (stem : String) (h : StyleHead) : Prop where
  kept : h.isOverride = false → h.overrideName = none ∧ h.accessorType = none
  changed : h.isOverride = true → h.overrideName = some stem

theorem Stemmed.classStem_eq {stem : String} {h : StyleHead} (hs : h.Stemmed stem) :
    h.classStem = if h.isOverride then stem else h.name := by
  cases ho : h.isOverride with
  | false => simp [classStem, (hs.kept ho).1]
  | true => simp [classStem, hs.changed ho]

theorem Blank.stemmed {h : StyleHead} (hh : h.Blank) (stem : String) : h.Stemmed stem where
  kept _ := hh.2
  changed ho := absurd ho (by simp [hh.1.1])

end StyleHead

namespace Style

/-- Marking the values of a style leaves what its class is called. -/
theorem stemmed_heirHead {stem : String} {h : StyleHead} (hs : h.Stemmed stem)
    (as : List Ancestor) : (heirHead h as).Stemmed stem where
  kept ho := by
    rw [isOverride_heirHead] at ho
    rw [overrideName_heirHead, accessorType_heirHead]
    exact hs.kept ho
  changed ho := by
    rw [isOverride_heirHead] at ho
    rw [overrideName_heirHead]
    exact hs.changed ho

theorem stemmed_nestedHeirHead (stem : String) {h : StyleHead} (hh : h.Blank)
    (as : List Ancestor) :
    (nestedHeirHead stem h as).Stemmed (stem ++ firstUpper h.name) := by
  cases as with
  | nil => exact hh.stemmed _
  | cons a as => exact ⟨nofun, fun _ => rfl⟩

/-- The classes of nested styles have the stem of the class around them. -/
def NestedStemmed (u : Style) : Prop :=
  ∀ m ∈ u.nestedStyles, m.head.Stemmed (u.classStem ++ firstUpper m.name)

/-- Marking names the nested styles by the stem of the style around them, at every depth. -/
theorem nestedStemmed_of_inheritingEach {x y : Style} {as : List Ancestor}
    (hy : y.properties = inheritingEach y.head x.properties as)
    (hx : ∀ n ∈ x.nestedStyles, n.Blank) : y.All NestedStemmed := by
  induction y using nestedInduction generalizing x as with
  | step y ih =>
    have hnested := nestedStyles_of_inheritingEach hy
    refine all_iff.2 ⟨fun m hm => ?_, fun m hm => ?_⟩
    · rw [hnested] at hm
      obtain ⟨n, hn, rfl⟩ := List.mem_map.1 hm
      rw [name_nestedHeir]
      exact stemmed_heirHead (stemmed_nestedHeirHead _ (blank_iff.1 (hx n hn)).1 _) _
    · have hmem := hm
      rw [hnested] at hm
      obtain ⟨n, hn, rfl⟩ := List.mem_map.1 hm
      exact ih _ hmem rfl (blank_iff.1 (hx n hn)).2

theorem stemmed_inheriting {x z : Style} (hx : x.Blank) (hz : z.properties = x.properties)
    {stem : String} (hs : z.head.Stemmed stem) (as : List Ancestor) :
    (z.inheriting as).head.Stemmed stem ∧ (z.inheriting as).All NestedStemmed :=
  ⟨stemmed_heirHead hs as,
    nestedStemmed_of_inheritingEach (hz ▸ rfl : _ = inheritingEach _ x.properties as)
      (blank_iff.1 hx).2⟩

end Style

/-- The classes of a stylesheet have the stems that marking gives to them. -/
structure Stylesheet.Stemmed (t : Stylesheet) : Prop where
  styles : ∀ x ∈ t.allStyles, x.head.Stemmed (t.name ++ x.name)
  nested : ∀ x ∈ t.allStyles, x.All Style.NestedStemmed

namespace Suite

variable {s l : Suite} {settings : Settings} {id : SheetId}

/-- A marked style of a stylesheet has the stem of its stylesheet and name. -/
theorem stemmed_inheritingStyle {done : List Style} {x y : Style} (hx : x.Blank)
    (h : s.inheritingStyle settings id done x = .ok y) :
    y.head.Stemmed ((s.sheet id).name ++ y.name) ∧ y.All Style.NestedStemmed := by
  obtain ⟨⟨⟨hover, -⟩, hblank⟩, -⟩ := Style.blank_iff.1 hx
  rw [name_inheritingStyle h]
  rcases inheritingStyle_ok h with ⟨b, a, rest, -, -, rfl⟩ | ⟨-, -, rfl⟩ |
    ⟨-, first, a, rest, -, -, rfl⟩ | ⟨-, -, path, rfl⟩
  · exact Style.stemmed_inheriting (z := (s.overriding id x).derived a) hx rfl
      ⟨fun ho => (by cases ho), fun _ => rfl⟩ _
  · exact Style.stemmed_inheriting hx rfl ((Style.blank_iff.1 hx).1.stemmed _) _
  · refine Style.stemmed_inheriting (z := x.derived a) hx rfl
      ⟨fun _ => ⟨hblank.1, ?_⟩, fun ho => ?_⟩ _
    · simp [Style.derived, hover, hblank.2]
    · exact absurd (hover.symm.trans ho) nofun
  · exact Style.stemmed_inheriting (z := x.withHead { x.head with inherits := some path }) hx rfl
      ⟨fun _ => hblank, fun ho => absurd (hover.symm.trans ho) nofun⟩ _

/-- In a prepared suite overriding styles are named anew, and the others keep their names. Nothing
is marked before preparation, as in every suite that is loaded (`Config.blank_suite`). -/
theorem Prepares.stemmed (h : Prepares settings s l)
    (hd : ∀ t ∈ s.registered, (t.styles.map Style.name).Nodup) (hb : s.Blank)
    (hid : id ∈ l.ids) : ((l.prepared settings).1.sheet id).Stemmed := by
  obtain ⟨t, u, done, hcompleted, hu⟩ := h.exists_outcome hd hid
  have hname : (u.sheet id).name = ((l.prepared settings).1.sheet id).name := by rw [hu.marked.eq]
  have hall : ∀ y ∈ ((l.prepared settings).1.sheet id).allStyles,
      y.head.Stemmed (((l.prepared settings).1.sheet id).name ++ y.name) ∧
        y.All Style.NestedStemmed := by
    intro y hy
    obtain ⟨earlier, x, -, hx, hinheriting⟩ :=
      hu.marked.marked.exists_step (hu.marked.perm.mem_iff.2 hy)
    rw [← hname]
    refine stemmed_inheritingStyle ?_ hinheriting
    exact (hcompleted ▸ hu.redirected).heads StyleHead.initial_blank
      (heads_shadowedIn StyleHead.initial_blank h.linked hb hid) hx
  exact ⟨fun y hy => (hall y hy).1, fun y hy => (hall y hy).2⟩

/-- Every class of a prepared suite that overrides none has kept its name and the type of its
accessor. -/
theorem Prepares.kept_of_mem_classes (h : Prepares settings s l)
    (hd : ∀ t ∈ s.registered, (t.styles.map Style.name).Nodup) (hb : s.Blank) {c : Ancestor}
    (hc : c ∈ (l.prepared settings).1.classes) (hover : c.style.head.isOverride = false) :
    c.style.head.overrideName = none ∧ c.style.head.accessorType = none := by
  rcases mem_classes_cases hc with ⟨id, hid, x, hx, rfl⟩ | ⟨p, hp, n, hn', rfl⟩
  · exact ((h.stemmed hd hb (h.ids_eq ▸ hid)).styles x hx).kept hover
  · obtain ⟨id, hid, hp⟩ := mem_classes.1 hp
    obtain ⟨x, hx, hp⟩ := Stylesheet.mem_classes.1 hp
    have hall := (h.stemmed hd hb (h.ids_eq ▸ hid)).nested x hx
    exact ((hall.of_mem_classesAt hp).self n hn').kept hover

end Suite

end Appearance
