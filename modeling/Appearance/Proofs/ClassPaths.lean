import Appearance.Proofs.FileNames
import Appearance.Proofs.Stems
import Appearance.Proofs.Superclasses
import Mathlib.Data.List.TakeWhile

/-!
# Paths of classes

The path of a class joins the names of the classes around it by points. If no name has a point, two
classes have one path only where two classes that stand side by side have one name
(`Suite.nodup_paths_iff_classNames`). After preparation an overriding style is called by the name of
its stylesheet or by the stem of the class around it, and the others keep their names, which a
project may choose alike: `Stylesheet.StemsApart` says what it has to avoid, and that is all
(`Prepares.nodup_paths_iff`).

That names have no points is needed: a name may spell a whole path (`Suite.paths_pathSpelled`). The
other instances show that each condition of `Stylesheet.StemsApart` is one that a project can break
by its choice of names.
-/

namespace Appearance

open Appearance.Text

/-! ## Paths -/

/-- The path of a class, or of one inside it. -/
def Under (path p : String) : Prop := p = path ∨ ∃ rest, p = path ++ "." ++ rest

namespace Under

variable {a b p path : String}

theorem of_append (h : Under (path ++ a) p) : ∃ q, p = path ++ q ∧ Under a q := by
  rcases h with rfl | ⟨rest, rfl⟩
  · exact ⟨a, rfl, .inl rfl⟩
  · exact ⟨a ++ "." ++ rest, by simp only [String.append_assoc], .inr ⟨rest, rfl⟩⟩

theorem outer (h : Under (path ++ "." ++ a) p) : Under path p := by
  rcases h with rfl | ⟨rest, rfl⟩
  · exact .inr ⟨a, rfl⟩
  · exact .inr ⟨a ++ "." ++ rest, by simp only [String.append_assoc]⟩

theorem ne (h : Under (path ++ "." ++ a) p) : p ≠ path := by
  intro heq
  have hlen := congrArg String.length heq
  have hpoint : ".".length = 1 := by decide
  rcases h with rfl | ⟨rest, rfl⟩ <;> simp only [String.length_append] at hlen <;> omega

/-- A name without a point ends at the first one. -/
theorem takeWhile_eq (h : Under a p) (ha : '.' ∉ a.toList) :
    p.toList.takeWhile (· != '.') = a.toList := by
  have hall : ∀ c ∈ a.toList, (c != '.') = true := fun c hc => by
    simpa using fun hpoint : c = '.' => ha (hpoint ▸ hc)
  rcases h with rfl | ⟨rest, rfl⟩
  · exact List.takeWhile_eq_self_iff.2 hall
  · rw [String.toList_append, String.toList_append, List.append_assoc,
      List.takeWhile_append_of_pos hall]
    simp

theorem eq (h : Under a p) (h' : Under b p) (ha : '.' ∉ a.toList) (hb : '.' ∉ b.toList) : a = b :=
  String.toList_injective ((h.takeWhile_eq ha).symm.trans (h'.takeWhile_eq hb))

theorem eq_of_append (h : Under (path ++ a) p) (h' : Under (path ++ b) p) (ha : '.' ∉ a.toList)
    (hb : '.' ∉ b.toList) : a = b := by
  obtain ⟨q, rfl, hq⟩ := h.of_append
  obtain ⟨q', heq, hq'⟩ := h'.of_append
  obtain rfl := (String.append_right_inj path).1 heq
  exact hq.eq hq' ha hb

end Under

/-! ## Classes side by side -/

/-- The name of the class has no point. -/
def StyleHead.Pointless (h : StyleHead) : Prop := '.' ∉ h.className.toList

namespace Style

/-- The classes of a style stand under its own. -/
theorem under_of_mem_classesAt {s : Style} {path : String} {c : Ancestor}
    (hc : c ∈ s.classesAt path) : Under path c.path := by
  induction s using nestedInduction generalizing path with
  | step s ih =>
    rcases mem_classesAt.1 hc with rfl | ⟨n, hn, hc⟩
    · exact .inl rfl
    · exact (ih n hn hc).outer

/-- Behind one path the classes of several styles have different paths if the classes themselves
have different names, and if those inside each one do. -/
theorem nodup_paths_flatMap {xs : List Style} (hp : ∀ x ∈ xs, x.head.Pointless) (path : String) :
    ((xs.flatMap fun x => x.classesAt (path ++ x.className)).map Ancestor.path).Nodup ↔
      (xs.map className).Nodup ∧
        ∀ x ∈ xs, ((x.classesAt (path ++ x.className)).map Ancestor.path).Nodup := by
  rw [List.map_flatMap, List.nodup_flatMap, and_comm, List.Nodup, List.pairwise_map]
  refine and_congr_left fun _ => List.Pairwise.iff_of_mem fun {x y} hx hy => ?_
  constructor
  · intro hdisjoint heq
    have hself := fun z : Style =>
      List.mem_map_of_mem (f := Ancestor.path) (z.self_mem_classesAt (path ++ z.className))
    exact hdisjoint (hself x) (heq ▸ hself y)
  · intro hne q hqx hqy
    obtain ⟨c, hc, rfl⟩ := List.mem_map.1 hqx
    obtain ⟨d, hd, hdc⟩ := List.mem_map.1 hqy
    exact hne ((under_of_mem_classesAt hc).eq_of_append (hdc ▸ under_of_mem_classesAt hd)
      (hp x hx) (hp y hy))

/-- The classes inside that of a style have different paths if those side by side have different
names. -/
theorem nodup_paths_classesAt {s : Style} (hp : s.All fun u => u.head.Pointless) (path : String) :
    ((s.classesAt path).map Ancestor.path).Nodup ↔
      s.All fun u => (u.nestedStyles.map className).Nodup := by
  induction s using nestedInduction generalizing path with
  | step s ih =>
    have hself : path ∉ (s.nestedStyles.flatMap fun n =>
        n.classesAt (path ++ "." ++ n.className)).map Ancestor.path := by
      intro hmem
      obtain ⟨c, hc, hcp⟩ := List.mem_map.1 hmem
      obtain ⟨n, -, hc⟩ := List.mem_flatMap.1 hc
      exact (under_of_mem_classesAt hc).ne hcp
    rw [classesAt_eq, List.map_cons, List.nodup_cons, and_iff_right hself,
      nodup_paths_flatMap (fun n hn => (hp.nested hn).self) (path ++ "."), all_iff]
    exact and_congr_right fun _ => forall₂_congr fun n hn => ih n hn (hp.nested hn) _

end Style

/-- Classes that stand side by side have different names. -/
structure Stylesheet.ClassNamesDistinct (t : Stylesheet) : Prop where
  styles : (t.allStyles.map Style.className).Nodup
  nested : ∀ x ∈ t.allStyles, x.All fun u => (u.nestedStyles.map Style.className).Nodup

namespace Stylesheet

theorem under_of_mem_classes {t : Stylesheet} {c : Ancestor} (hc : c ∈ t.classes) :
    Under t.name c.path := by
  obtain ⟨x, -, hc⟩ := mem_classes.1 hc
  exact (Style.under_of_mem_classesAt hc).outer

/-- Without points in names the paths are distinct if and only if the names side by side are. -/
theorem nodup_paths_classes {t : Stylesheet}
    (hp : ∀ x ∈ t.allStyles, x.All fun u => u.head.Pointless) :
    (t.classes.map Ancestor.path).Nodup ↔ t.ClassNamesDistinct := by
  rw [show t.classes = t.allStyles.flatMap fun x => x.classesAt (t.name ++ "." ++ x.className)
    from rfl, Style.nodup_paths_flatMap (fun x hx => (hp x hx).self)]
  have hnested := forall₂_congr fun x hx =>
    Style.nodup_paths_classesAt (hp x hx) (t.name ++ "." ++ x.className)
  exact ⟨fun h => ⟨h.1, hnested.1 h.2⟩, fun h => ⟨h.styles, hnested.2 h.nested⟩⟩

end Stylesheet

/-- If neither a stylesheet nor a class has a point in its name, the paths are different if the
names of classes side by side are. -/
theorem Suite.nodup_paths_iff_classNames {s : Suite}
    (hsheets : (s.registered.map Stylesheet.name).Nodup)
    (hnames : ∀ t ∈ s.registered, '.' ∉ t.name.toList)
    (hp : ∀ t ∈ s.registered, ∀ x ∈ t.allStyles, x.All fun u => u.head.Pointless) :
    (s.classes.map Ancestor.path).Nodup ↔ ∀ t ∈ s.registered, t.ClassNamesDistinct := by
  rw [classes, List.map_flatMap, List.nodup_flatMap, and_iff_left]
  · exact forall₂_congr fun t ht => Stylesheet.nodup_paths_classes (hp t ht)
  · refine (List.pairwise_map.1 hsheets).imp_of_mem fun {t u} ht hu hne q hqt hqu => ?_
    obtain ⟨c, hc, rfl⟩ := List.mem_map.1 hqt
    obtain ⟨d, hd, hdc⟩ := List.mem_map.1 hqu
    exact hne ((Stylesheet.under_of_mem_classes hc).eq
      (hdc ▸ Stylesheet.under_of_mem_classes hd) (hnames t ht) (hnames u hu))

/-! ## Names of classes -/

/-- The names of the classes end alike: only that of an animator has an end of its own. -/
def StyleHead.SameEnding (h k : StyleHead) : Prop :=
  (h.isAnimation && h.nestedIn.isNone) = (k.isAnimation && k.nestedIn.isNone)

instance (h k : StyleHead) : Decidable (h.SameEnding k) := inferInstanceAs (Decidable (_ = _))

namespace StyleHead

/-- Two classes have one name if their stems and their endings are equal. -/
theorem className_eq_iff {h k : StyleHead} :
    h.className = k.className ↔ h.classStem = k.classStem ∧ h.SameEnding k := by
  have hends : ∀ a b : String, a ++ "AnimatorProxy" ≠ b ++ "AppearanceProxy" := by
    intro a b heq
    have := congrArg (fun s : String => s.toList.reverse) heq
    simp at this
  unfold className SameEnding
  constructor
  · intro heq
    split at heq <;> split at heq
    · next hh hk => exact ⟨(String.append_left_inj _).1 heq, hh.trans hk.symm⟩
    · exact absurd heq (hends _ _)
    · exact absurd heq.symm (hends _ _)
    · next hh hk => exact ⟨(String.append_left_inj _).1 heq, (eq_false_of_ne_true hh).trans
        (eq_false_of_ne_true hk).symm⟩
  · rintro ⟨hstem, hending⟩
    rw [hstem, hending]

/-- The stem is a common one if the class overrides another, and its own name if not. -/
theorem Stemmed.className_eq_iff {a b : String} {h k : StyleHead} (hh : h.Stemmed a)
    (hk : k.Stemmed b) : h.className = k.className ↔ h.SameEnding k ∧
      (if h.isOverride then a else h.name) = if k.isOverride then b else k.name := by
  rw [StyleHead.className_eq_iff, hh.classStem_eq, hk.classStem_eq, and_comm]

/-- A class has no point in its name if its stem has none. -/
theorem pointless_iff {h : StyleHead} : h.Pointless ↔ '.' ∉ h.classStem.toList := by
  unfold Pointless className
  split <;> simp

theorem Stemmed.pointless {stem : String} {h : StyleHead} (hs : h.Stemmed stem)
    (hname : '.' ∉ h.name.toList) (hstem : '.' ∉ stem.toList) : h.Pointless := by
  rw [pointless_iff, hs.classStem_eq]
  split
  · exact hstem
  · exact hname

end StyleHead

namespace Style

/-- Where no name has a point, the names of classes have none. -/
theorem allPointless {s : Style} (hs : s.head.Pointless) (hstemmed : s.All NestedStemmed)
    (hnames : s.All fun u => '.' ∉ u.name.toList) : s.All fun u => u.head.Pointless := by
  induction s using nestedInduction with
  | step s ih =>
    refine all_iff.2 ⟨hs, fun n hn => ?_⟩
    refine ih n hn ((hstemmed.self n hn).pointless (hnames.nested hn).self fun hmem => ?_)
      (hstemmed.nested hn) (hnames.nested hn)
    rw [String.toList_append, List.mem_append] at hmem
    exact hmem.elim (StyleHead.pointless_iff.1 hs)
      fun hupper => (hnames.nested hn).self (mem_of_mem_firstUpper (by decide) hupper)

/-- When styles side by side are called alike: their names are one, or one has the name that an
overriding one is given, or two overriding ones are given one name. -/
theorem nodup_classNames_iff (stem : String → String) {xs : List Style}
    (hs : ∀ x ∈ xs, x.head.Stemmed (stem x.name)) :
    (xs.map className).Nodup ↔
      (xs.Pairwise fun x y => x.head.isOverride = y.head.isOverride → x.head.SameEnding y.head →
        x.name ≠ y.name) ∧
      (∀ x ∈ xs, ∀ y ∈ xs, x.head.isOverride = false → y.head.isOverride = true →
        x.head.SameEnding y.head → x.name ≠ stem y.name) ∧
      ∀ x ∈ xs, ∀ y ∈ xs, x.head.isOverride = true → y.head.isOverride = true →
        x.head.SameEnding y.head → stem x.name = stem y.name → x.name = y.name := by
  have heq : ∀ x ∈ xs, ∀ y ∈ xs, x.className = y.className ↔ _ :=
    fun x hx y hy => (hs x hx).className_eq_iff (hs y hy)
  constructor
  · intro hnodup
    have hinj := List.inj_on_of_nodup_map hnodup
    refine ⟨(List.pairwise_map.1 hnodup).imp_of_mem fun {x y} hx hy hne hover hend hname => ?_,
      fun x hx y hy hxo hyo hend hname => ?_, fun x hx y hy hxo hyo hend hname => ?_⟩
    · refine hne ((heq x hx y hy).2 ⟨hend, ?_⟩)
      rw [hover, show x.head.name = y.head.name from hname, show x.name = y.name from hname]
    · obtain rfl := hinj hx hy ((heq x hx y hy).2 ⟨hend, by rw [hxo, hyo]; exact hname⟩)
      cases hxo.symm.trans hyo
    · obtain rfl := hinj hx hy ((heq x hx y hy).2 ⟨hend, by rw [hxo, hyo]; exact hname⟩)
      rfl
  · rintro ⟨hnames, hkept, hchanged⟩
    refine List.pairwise_map.2 (hnames.imp_of_mem fun {x y} hx hy hname hclass => ?_)
    obtain ⟨hend, hstems⟩ := (heq x hx y hy).1 hclass
    cases hxo : x.head.isOverride <;> cases hyo : y.head.isOverride <;> rw [hxo, hyo] at hstems
    case false.false => exact hname (hxo.trans hyo.symm) hend hstems
    case false.true => exact hkept x hx y hy hxo hyo hend hstems
    case true.false => exact hkept y hy x hx hyo hxo hend.symm hstems.symm
    case true.true =>
      exact hname (hxo.trans hyo.symm) hend (hchanged x hx y hy hxo hyo hend hstems)

/-- The nested styles of a style give no class name twice: none that overrides nothing has the name
that an overriding one is given, and no two overriding ones have one name but for the case of its
first letter. -/
structure NestedApart (u : Style) : Prop where
  kept : ∀ m ∈ u.nestedStyles, ∀ n ∈ u.nestedStyles, m.head.isOverride = false →
    n.head.isOverride = true → m.head.SameEnding n.head →
      m.name ≠ u.classStem ++ firstUpper n.name
  changed : ∀ m ∈ u.nestedStyles, ∀ n ∈ u.nestedStyles, m.head.isOverride = true →
    n.head.isOverride = true → m.head.SameEnding n.head →
      firstUpper m.name = firstUpper n.name → m.name = n.name

/-- The nested styles of a style, if their names are distinct, are apart if their classes are. -/
theorem nodup_nestedClassNames_iff {u : Style} (hs : u.NestedStemmed)
    (hn : (u.nestedStyles.map name).Nodup) :
    (u.nestedStyles.map className).Nodup ↔ u.NestedApart := by
  have hpair := (List.pairwise_map.1 hn).imp fun {x y} hne
    (_ : x.head.isOverride = y.head.isOverride) (_ : x.head.SameEnding y.head) => hne
  rw [nodup_classNames_iff (fun n => u.classStem ++ firstUpper n) hs, and_iff_right hpair]
  simp only [String.append_right_inj]
  exact ⟨fun h => ⟨h.1, h.2⟩, fun h => ⟨h.kept, h.changed⟩⟩

/-- The nested styles of a style are apart, at every depth, if those side by side have different
classes. -/
theorem allNestedApart_iff {s : Style} (hs : s.All NestedStemmed) (hn : s.NestedDistinct) :
    (s.All fun u => (u.nestedStyles.map className).Nodup) ↔ s.All NestedApart := by
  induction s using nestedInduction with
  | step s ih =>
    rw [all_iff, all_iff]
    exact and_congr (nodup_nestedClassNames_iff hs.self hn.self)
      (forall₂_congr fun n hmem => ih n hmem (hs.nested hmem) (hn.nested hmem))

end Style

/-- The styles of a stylesheet give no class name twice: none that overrides nothing has the name
that an overriding one is given, the animator is not named like a style of its kind, and nested
styles are apart at every depth. -/
structure Stylesheet.StemsApart (t : Stylesheet) : Prop where
  kept : ∀ x ∈ t.allStyles, ∀ y ∈ t.allStyles, x.head.isOverride = false →
    y.head.isOverride = true → x.head.SameEnding y.head → x.name ≠ t.name ++ y.name
  animator : ∀ a ∈ t.animator, ∀ x ∈ t.styles, x.head.isOverride = a.head.isOverride →
    x.head.SameEnding a.head → x.name ≠ a.name
  nested : ∀ x ∈ t.allStyles, x.All Style.NestedApart

namespace Stylesheet

/-- If styles have distinct names, only the animator can have the name of one. -/
theorem pairwise_names_iff {t : Stylesheet} (ht : (t.styles.map Style.name).Nodup) :
    (t.allStyles.Pairwise fun x y => x.head.isOverride = y.head.isOverride →
        x.head.SameEnding y.head → x.name ≠ y.name) ↔
      ∀ a ∈ t.animator, ∀ x ∈ t.styles, x.head.isOverride = a.head.isOverride →
        x.head.SameEnding a.head → x.name ≠ a.name := by
  have hstyles := (List.pairwise_map.1 ht).imp fun {x y} hne
    (_ : x.head.isOverride = y.head.isOverride) (_ : x.head.SameEnding y.head) => hne
  rw [allStyles, List.pairwise_append, and_iff_right hstyles]
  constructor
  · exact fun h a ha x hx => h.2 x hx a (Option.mem_toList.2 ha)
  · intro h
    refine ⟨?_, fun x hx a ha => h a (Option.mem_toList.1 ha) x hx⟩
    cases t.animator <;> simp

/-- Names of classes are distinct if and only if the stems stay apart. -/
theorem Stemmed.classNamesDistinct_iff {t : Stylesheet} (hs : t.Stemmed)
    (ht : (t.styles.map Style.name).Nodup) (hn : ∀ x ∈ t.allStyles, x.NestedDistinct) :
    t.ClassNamesDistinct ↔ t.StemsApart := by
  have htop := Style.nodup_classNames_iff (fun n => t.name ++ n) hs.styles
  rw [pairwise_names_iff ht] at htop
  have hnested := forall₂_congr fun x hx => Style.allNestedApart_iff (hs.nested x hx) (hn x hx)
  constructor
  · intro h
    obtain ⟨hanimator, hkept, -⟩ := htop.1 h.styles
    exact ⟨hkept, hanimator, hnested.1 h.nested⟩
  · intro h
    refine ⟨htop.2 ⟨h.animator, h.kept, fun _ _ _ _ _ _ _ heq => ?_⟩, hnested.2 h.nested⟩
    exact (String.append_right_inj _).1 heq

end Stylesheet

namespace Suite

variable {s l : Suite} {settings : Settings}

/-- No stylesheet has a point in its name, and no style, at any depth. -/
structure Pointless (s : Suite) : Prop where
  sheets : ∀ t ∈ s.registered, '.' ∉ t.name.toList
  styles : ∀ t ∈ s.registered, ∀ x ∈ t.allStyles, x.All fun u => '.' ∉ u.name.toList

instance (s : Suite) : Decidable s.Pointless :=
  decidable_of_iff ((∀ t ∈ s.registered, '.' ∉ t.name.toList) ∧
      ∀ t ∈ s.registered, ∀ x ∈ t.allStyles, x.All fun u => '.' ∉ u.name.toList)
    ⟨fun h => ⟨h.1, h.2⟩, fun h => ⟨h.sheets, h.styles⟩⟩

section Prepared

variable (h : Prepares settings s l) (hd : ∀ t ∈ s.registered, (t.styles.map Style.name).Nodup)
  (hn : ∀ t ∈ s.registered, ∀ x ∈ t.allStyles, x.NestedDistinct) (hb : s.Blank)
  (hp : s.Pointless)

include h hd hn hb hp

/-- Preparation brings no points into the names of classes. -/
theorem Prepares.allPointless {id : SheetId} (hid : id ∈ l.ids) :
    ∀ x ∈ ((l.prepared settings).1.sheet id).allStyles, x.All fun u => u.head.Pointless := by
  intro x hx
  have hstemmed := h.stemmed hd hb hid
  have hnames := h.allNames hd hn (p := fun n => '.' ∉ n.toList) hp.styles hid x hx
  have hsheet := hp.sheets _ (linked_registered h.linked ▸ sheet_mem hid)
  refine Style.allPointless ((hstemmed.styles x hx).pointless hnames.self fun hmem => ?_)
    (hstemmed.nested x hx) hnames
  rw [h.name_eq hid, String.toList_append, List.mem_append] at hmem
  exact hmem.elim hsheet hnames.self

/-- The classes of a prepared suite without points in its names have different paths if and only if
the styles of each of its stylesheets are apart. Registered stylesheets have different names
(`Config.nodup_names_suite`). -/
theorem Prepares.nodup_paths_iff (hsheets : (s.registered.map Stylesheet.name).Nodup) :
    ((l.prepared settings).1.classes.map Ancestor.path).Nodup ↔
      ∀ t ∈ (l.prepared settings).1.registered, t.StemsApart := by
  have hnames : (l.prepared settings).1.registered.map Stylesheet.name =
      s.registered.map Stylesheet.name := by
    rw [← linked_registered h.linked, registered_eq_map, registered_eq_map, h.ids_eq, List.map_map,
      List.map_map]
    exact List.map_congr_left fun id hid => h.name_eq hid
  have hsheet : ∀ t ∈ (l.prepared settings).1.registered, ∃ id ∈ l.ids,
      (l.prepared settings).1.sheet id = t := fun t ht => by
    obtain ⟨id, hid, rfl⟩ := exists_id_of_mem ht
    exact ⟨id, h.ids_eq ▸ hid, rfl⟩
  rw [nodup_paths_iff_classNames (hnames ▸ hsheets)]
  · refine forall₂_congr fun t ht => ?_
    obtain ⟨id, hid, rfl⟩ := hsheet t ht
    exact (h.stemmed hd hb hid).classNamesDistinct_iff (h.styleNames_nodup hd hid)
      (h.nestedDistinct hd hn hid)
  · intro t ht
    obtain ⟨id, hid, rfl⟩ := hsheet t ht
    rw [h.name_eq hid]
    exact hp.sheets _ (linked_registered h.linked ▸ sheet_mem hid)
  · intro t ht
    obtain ⟨id, hid, rfl⟩ := hsheet t ht
    exact h.allPointless hd hn hb hp hid

end Prepared

/-! ## Instances -/

/-- The stems in this suite stay apart. -/
theorem stemsApart_layeredTheme :
    (({ layeredTheme with base? := some 0 }.prepared .standard).1.classes.map
      Ancestor.path).Nodup ∧
    ∀ t ∈ ({ layeredTheme with base? := some 0 }.prepared .standard).1.registered,
      t.StemsApart :=
  ⟨nodup_paths_layeredTheme,
    (Prepares.nodup_paths_iff prepares_layeredTheme (by decide) (by decide) (by decide) (by decide)
      (by decide)).1 nodup_paths_layeredTheme⟩

/-- A base and a stylesheet that extends it. -/
def extended (base own : List Style) : Suite :=
  ⟨[⟨"B", base, none, none, false, []⟩, ⟨"D", own, none, some "B", false, []⟩], none, none⟩

/-- A style with nested ones that have nothing in them. -/
def nesting (name : String) (names : List String) : Style :=
  .named name (names.map fun n => .ofStyle (.named n []))

/-- A style has the name that the shadow of another one is given. -/
def ownStemTaken : Suite := extended [.named "x" []] [.named "Dx" []]

/-- A nested style has the name that one beside it is given, which overrides another one. -/
def nestedStemTaken : Suite := extended [nesting "x" ["n"]] [nesting "x" ["n", "DxN"]]

/-- Two nested styles that override others have one name but for the case of its first letter. -/
def capitalsTaken : Suite := extended [nesting "x" ["n", "N"]] [.named "x" []]

/-- The name of a style spells the path of a nested one. -/
def pathSpelled : Suite :=
  ⟨[⟨"B", [nesting "x" ["n"], .named "xAppearanceProxy.n" []], none, none, false, []⟩], none, none⟩

/-- The name of a stylesheet spells the path of a class. -/
def sheetSpelled : Suite :=
  ⟨[⟨"B", [nesting "x" ["n"]], none, none, false, []⟩,
    ⟨"B.xAppearanceProxy", [.named "n" []], none, some "B", false, []⟩], none, none⟩

theorem paths_ownStemTaken :
    ({ ownStemTaken with base? := some 0 }.prepared .standard).1.classes.map Ancestor.path =
      ["B.xAppearanceProxy", "D.DxAppearanceProxy", "D.DxAppearanceProxy"] := by
  cbv

theorem paths_nestedStemTaken :
    ({ nestedStemTaken with base? := some 0 }.prepared .standard).1.classes.map Ancestor.path =
      ["B.xAppearanceProxy", "B.xAppearanceProxy.nAppearanceProxy", "D.DxAppearanceProxy",
        "D.DxAppearanceProxy.DxNAppearanceProxy", "D.DxAppearanceProxy.DxNAppearanceProxy"] := by
  cbv

theorem paths_capitalsTaken :
    ({ capitalsTaken with base? := some 0 }.prepared .standard).1.classes.map Ancestor.path =
      ["B.xAppearanceProxy", "B.xAppearanceProxy.NAppearanceProxy",
        "B.xAppearanceProxy.nAppearanceProxy", "D.DxAppearanceProxy",
        "D.DxAppearanceProxy.DxNAppearanceProxy", "D.DxAppearanceProxy.DxNAppearanceProxy"] := by
  cbv

theorem paths_pathSpelled :
    ({ pathSpelled with base? := some 0 }.prepared .standard).1.classes.map Ancestor.path =
      ["B.xAppearanceProxy", "B.xAppearanceProxy.nAppearanceProxy",
        "B.xAppearanceProxy.nAppearanceProxy"] := by
  cbv

/-- A name spells the path from another stylesheet. -/
theorem paths_sheetSpelled :
    ({ sheetSpelled with base? := some 0 }.prepared .standard).1.classes.map Ancestor.path =
      ["B.xAppearanceProxy", "B.xAppearanceProxy.nAppearanceProxy",
        "B.xAppearanceProxy.nAppearanceProxy",
        "B.xAppearanceProxy.B.xAppearanceProxyxAppearanceProxy",
        "B.xAppearanceProxy.B.xAppearanceProxyxAppearanceProxy." ++
          "B.xAppearanceProxyxNAppearanceProxy"] := by
  cbv

/-- The names in a suite are distinct and it is prepared, but two of its classes have one path. -/
def SharesPath (s : Suite) : Prop :=
  s.WellNamed ∧ Prepares .standard s { s with base? := some 0 } ∧
    ¬(({ s with base? := some 0 }.prepared .standard).1.classes.map Ancestor.path).Nodup

/-- Distinct names do not make paths different. -/
theorem shared_paths :
    ownStemTaken.SharesPath ∧ nestedStemTaken.SharesPath ∧ capitalsTaken.SharesPath ∧
      pathSpelled.SharesPath ∧ sheetSpelled.SharesPath := by
  refine ⟨⟨by decide, ⟨rfl, by cbv⟩, by rw [paths_ownStemTaken]; decide⟩,
    ⟨by decide, ⟨rfl, by cbv⟩, by rw [paths_nestedStemTaken]; decide⟩,
    ⟨by decide, ⟨rfl, by cbv⟩, by rw [paths_capitalsTaken]; decide⟩,
    ⟨by decide, ⟨rfl, by cbv⟩, by rw [paths_pathSpelled]; decide⟩,
    ⟨by decide, ⟨rfl, by cbv⟩, by rw [paths_sheetSpelled]; decide⟩⟩

end Suite

end Appearance
