import Appearance.Proofs.Heirs

/-!
# Generated classes

Every style becomes a class inside that of the style around it, and that of a top-level style
stands in the class of its stylesheet. `Stylesheet.class?` finds the class at a path of names,
`Suite.classes` lists the classes of all registered stylesheets, each as an `Ancestor`: a style
with the path of its class.

A class is kept together with its path since marking writes paths: what a style inherits is the
path of a class, and the statement that this class exists is that it is one of `Suite.classes`.

The list of classes follows the nesting of the code that is generated, and the path of a class is
built on the way down, so it is the text by which other classes refer to it. `Derives` is defined
by these texts and not by the styles from which an heir was marked. Whether a superclass is there
is therefore a question about the generated code, and the modules on superclasses answer it from
the search that wrote the path.
-/

namespace Appearance

/-! ## Paths of names -/

/-- The style at a path of nested names. -/
def Style.at? : List String → Style → Option Style
  | [], s => some s
  | n :: names, s => (s.nested? n).bind (Style.at? names)

/-- The class at a path of nested names inside a class. -/
def Ancestor.at? : List String → Ancestor → Option Ancestor
  | [], a => some a
  | n :: names, a => (a.nested? n).bind (Ancestor.at? names)

/-- The class of a top-level style. -/
def Stylesheet.classOf (t : Stylesheet) (x : Style) : Ancestor := ⟨t.name ++ "." ++ x.className, x⟩

/-- The class at a path of names, which begins with that of a top-level style. -/
def Stylesheet.class? (t : Stylesheet) (name : String) (names : List String) : Option Ancestor :=
  ((t.allStyles.find? (·.name == name)).map t.classOf).bind (Ancestor.at? names)

theorem Stylesheet.class?_eq {t : Stylesheet} (ht : (t.allStyles.map Style.name).Nodup) {x : Style}
    (hx : x ∈ t.allStyles) (names : List String) :
    t.class? x.name names = (t.classOf x).at? names := by
  rw [class?, find?_eq_some_of_nodup ht hx]
  rfl

/-- The class at a path is that of the style at the path. -/
theorem Ancestor.style_at? (names : List String) (a : Ancestor) :
    (a.at? names).map Ancestor.style = a.style.at? names := by
  induction names generalizing a with
  | nil => rfl
  | cons n names ih =>
    rw [at?, Style.at?, nested?]
    cases a.style.nested? n with
    | none => rfl
    | some m => exact ih ⟨_, m⟩

theorem Ancestor.isSome_at? (names : List String) (a : Ancestor) :
    (a.at? names).isSome = (a.style.at? names).isSome := by
  rw [← style_at?, Option.isSome_map]

namespace Style

theorem nested?_outline (s : Style) (n : String) :
    (s.outline StyleHead.declared).nested? n =
      (s.nested? n).map (outline StyleHead.declared) := by
  rw [nested?, nested?, nestedStyles_outline, List.find?_map]
  refine congrArg (Option.map _) (List.find?_congr fun m _ => ?_)
  rw [Function.comp_apply, name_outline_declared]

theorem at?_outline (names : List String) (s : Style) :
    (s.outline StyleHead.declared).at? names = (s.at? names).map (outline StyleHead.declared) := by
  induction names generalizing s with
  | nil => rfl
  | cons n names ih =>
    rw [at?, at?, nested?_outline]
    cases s.nested? n with
    | none => rfl
    | some m => exact ih m

theorem isSome_at?_congr {s t : Style}
    (h : s.outline StyleHead.declared = t.outline StyleHead.declared) (names : List String) :
    (s.at? names).isSome = (t.at? names).isSome := by
  have := congrArg Option.isSome (congrArg (Style.at? names) h)
  rwa [at?_outline, at?_outline, Option.isSome_map, Option.isSome_map] at this

/-- Sorting changes neither which paths there are nor what is there. -/
theorem at?_sorted (names : List String) {s : Style} (h : s.NestedDistinct) :
    s.sorted.at? names = (s.at? names).map sorted := by
  induction names generalizing s with
  | nil => rfl
  | cons n names ih =>
    rw [at?, at?, nested?_sorted h.self]
    cases hm : s.nested? n with
    | none => rfl
    | some m => exact ih (h.nested (nested?_mem hm).1)

/-- The nested styles of an heir are heirs of those of its nearest ancestor, at every path that the
ancestor has. -/
theorem Heir.at? {x y c : Style} {a b : Ancestor} {rest : List Ancestor}
    (h : Heir x (a :: rest) y) {n : String} {names : List String}
    (hc : y.at? (n :: names) = some c) (hb : a.at? (n :: names) = some b) :
    c.head.isOverride = true ∧ c.head.inherits = some b.path := by
  induction names generalizing x y a rest n with
  | nil =>
    obtain ⟨m, hm, hmc⟩ := Option.bind_eq_some_iff.1 hc
    obtain ⟨d, hd, hdb⟩ := Option.bind_eq_some_iff.1 hb
    cases hmc
    cases hdb
    obtain ⟨hmem, hname⟩ := nested?_mem hm
    obtain ⟨m', -, hheir, hover⟩ := h.nested hmem
    rw [hname, Ancestor.allNested_cons n hd] at hheir hover
    refine ⟨by rw [hover]; simp, ?_⟩
    rw [hheir.inherits_eq]
    rfl
  | cons n' names ih =>
    obtain ⟨m, hm, hmc⟩ := Option.bind_eq_some_iff.1 hc
    obtain ⟨d, hd, hdb⟩ := Option.bind_eq_some_iff.1 hb
    obtain ⟨hmem, hname⟩ := nested?_mem hm
    obtain ⟨m', -, hheir, -⟩ := h.nested hmem
    rw [hname, Ancestor.allNested_cons n hd] at hheir
    exact ih hheir hmc hdb

end Style

/-! ## All classes -/

namespace Style

mutual

/-- The classes of a style whose own class has the given path. -/
def classesAt (path : String) : Style → List Ancestor
  | mk head properties => ⟨path, mk head properties⟩ :: classesIn path properties

/-- The classes of the nested styles. -/
def classesIn (path : String) : List Property → List Ancestor
  | [] => []
  | .leaf .. :: ps => classesIn path ps
  | .nested _ style :: ps => classesAt (path ++ "." ++ style.className) style ++ classesIn path ps

end

/-- The classes in properties are those of the nested styles. -/
theorem classesIn_eq (path : String) (ps : List Property) :
    classesIn path ps = (ps.filterMap Property.style?).flatMap fun n =>
      n.classesAt (path ++ "." ++ n.className) := by
  induction ps with
  | nil => rfl
  | cons p ps ih =>
    cases p with
    | leaf => rw [classesIn, ih]; rfl
    | nested k n => rw [classesIn, ih]; rfl

theorem classesAt_eq (path : String) (s : Style) :
    s.classesAt path = ⟨path, s⟩ :: s.nestedStyles.flatMap fun n =>
      n.classesAt (path ++ "." ++ n.className) := by
  obtain ⟨h, ps⟩ := s
  rw [classesAt, classesIn_eq]
  rfl

theorem mem_classesAt {path : String} {s : Style} {c : Ancestor} :
    c ∈ s.classesAt path ↔ c = ⟨path, s⟩ ∨
      ∃ n ∈ s.nestedStyles, c ∈ n.classesAt (path ++ "." ++ n.className) := by
  rw [classesAt_eq, List.mem_cons, List.mem_flatMap]

theorem self_mem_classesAt (path : String) (s : Style) : ⟨path, s⟩ ∈ s.classesAt path :=
  mem_classesAt.2 (Or.inl rfl)

/-- What holds at every depth of a style holds at every depth of each class inside its own. -/
theorem All.of_mem_classesAt {p : Style → Prop} {s : Style} (h : s.All p) {path : String}
    {c : Ancestor} (hc : c ∈ s.classesAt path) : c.style.All p := by
  induction s using nestedInduction generalizing path with
  | step s ih =>
    rcases mem_classesAt.1 hc with rfl | ⟨n, hn, hc⟩
    · exact h
    · exact ih n hn (h.nested hn) hc

end Style

/-- The class of an ancestor and those inside it. -/
def Ancestor.classes (a : Ancestor) : List Ancestor := a.style.classesAt a.path

namespace Ancestor

theorem self_mem_classes (a : Ancestor) : a ∈ a.classes := Style.self_mem_classesAt a.path a.style

theorem mem_classes {a c : Ancestor} :
    c ∈ a.classes ↔ c = a ∨ ∃ n ∈ a.style.nestedStyles,
      c ∈ (⟨a.path ++ "." ++ n.className, n⟩ : Ancestor).classes :=
  Style.mem_classesAt

/-- The classes inside a class inside another one are inside that. -/
theorem classes_subset {a b : Ancestor} (h : b ∈ a.classes) : b.classes ⊆ a.classes := by
  obtain ⟨path, s⟩ := a
  induction s using Style.nestedInduction generalizing path b with
  | step s ih =>
    intro c hc
    rcases mem_classes.1 h with rfl | ⟨n, hn, hb⟩
    · exact hc
    · exact mem_classes.2 (Or.inr ⟨n, hn, ih n hn _ hb hc⟩)

theorem nested?_mem_classes {n : String} {a b : Ancestor} (h : a.nested? n = some b) :
    b ∈ a.classes := by
  obtain ⟨m, hm, rfl⟩ := nested?_eq_some.1 h
  exact mem_classes.2 (Or.inr ⟨m, (Style.nested?_mem hm).1, self_mem_classes _⟩)

theorem at?_mem_classes {names : List String} {a b : Ancestor} (h : a.at? names = some b) :
    b ∈ a.classes := by
  induction names generalizing a with
  | nil =>
    cases h
    exact self_mem_classes b
  | cons n names ih =>
    obtain ⟨c, hc, hb⟩ := Option.bind_eq_some_iff.1 h
    exact classes_subset (nested?_mem_classes hc) (ih hb)

end Ancestor

/-- A class inside another one is that or is nested in one that is inside it. -/
theorem Ancestor.mem_classes_cases {a c : Ancestor} (hc : c ∈ a.classes) :
    c = a ∨ ∃ p ∈ a.classes, ∃ n ∈ p.style.nestedStyles, c = ⟨p.path ++ "." ++ n.className, n⟩ := by
  obtain ⟨path, s⟩ := a
  induction s using Style.nestedInduction generalizing path with
  | step s ih =>
    rcases mem_classes.1 hc with rfl | ⟨n, hn, hc⟩
    · exact .inl rfl
    · rcases ih n hn _ hc with rfl | ⟨p, hp, m, hm, rfl⟩
      · exact .inr ⟨_, self_mem_classes _, n, hn, rfl⟩
      · exact .inr ⟨p, mem_classes.2 (.inr ⟨n, hn, hp⟩), m, hm, rfl⟩

/-- The classes of a stylesheet. -/
def Stylesheet.classes (t : Stylesheet) : List Ancestor :=
  t.allStyles.flatMap fun x => (t.classOf x).classes

theorem Stylesheet.mem_classes {t : Stylesheet} {c : Ancestor} :
    c ∈ t.classes ↔ ∃ x ∈ t.allStyles, c ∈ (t.classOf x).classes :=
  List.mem_flatMap

namespace Suite

/-- The classes of the registered stylesheets. -/
def classes (s : Suite) : List Ancestor := s.registered.flatMap Stylesheet.classes

/-- A class has the other one as its superclass: `inherits` names the path of it. -/
def Derives (s : Suite) (c a : Ancestor) : Prop :=
  a ∈ s.classes ∧ c.style.head.inherits = some a.path

/-- The classes of a suite are those of its registered stylesheets. -/
theorem mem_classes {s : Suite} {c : Ancestor} :
    c ∈ s.classes ↔ ∃ id ∈ s.ids, c ∈ (s.sheet id).classes := by
  rw [classes, List.mem_flatMap]
  constructor
  · rintro ⟨t, ht, hc⟩
    obtain ⟨id, hid, rfl⟩ := exists_id_of_mem ht
    exact ⟨id, hid, hc⟩
  · rintro ⟨id, hid, hc⟩
    exact ⟨_, sheet_mem hid, hc⟩

theorem mem_classes_of_classOf {s : Suite} {id : SheetId} (hid : id ∈ s.ids) {x : Style}
    (hx : x ∈ (s.sheet id).allStyles) {c : Ancestor} (hc : c ∈ ((s.sheet id).classOf x).classes) :
    c ∈ s.classes :=
  mem_classes.2 ⟨id, hid, Stylesheet.mem_classes.2 ⟨x, hx, hc⟩⟩

/-- A class is that of a top-level style or is nested in another one. -/
theorem mem_classes_cases {s : Suite} {c : Ancestor} (hc : c ∈ s.classes) :
    (∃ id ∈ s.ids, ∃ x ∈ (s.sheet id).allStyles, c = (s.sheet id).classOf x) ∨
      ∃ p ∈ s.classes, ∃ n ∈ p.style.nestedStyles, c = ⟨p.path ++ "." ++ n.className, n⟩ := by
  obtain ⟨id, hid, hc⟩ := mem_classes.1 hc
  obtain ⟨x, hx, hc⟩ := Stylesheet.mem_classes.1 hc
  rcases Ancestor.mem_classes_cases hc with rfl | ⟨p, hp, n, hn, rfl⟩
  · exact .inl ⟨id, hid, x, hx, rfl⟩
  · exact .inr ⟨p, mem_classes_of_classOf hid hx hp, n, hn, rfl⟩

end Suite

end Appearance
