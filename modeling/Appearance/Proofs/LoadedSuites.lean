import Appearance.Proofs.AccessorTypes
import Appearance.Proofs.Gathering
import Appearance.Proofs.Loading
import Appearance.Proofs.Openness

/-!
# Suites that are loaded

What is proved of the classes of a prepared suite supposes that nothing was marked on it before, and
that no animator extends a style. A suite that is made by hand may break that. One that a
configuration loads does not (`Config.blank_suite`, `Config.plainAnimators_suite`), and without a
framework it imports nothing (`Config.imported_suite`). So of loaded suites the same holds under
conditions on the documents alone: which names they declare, what extends an animator, and that the
classes get distinct paths.

* `Config.superclasses_prepared` : superclasses are classes, and the way up ends;
* `Config.openSuperclasses_prepared` : they are written as open ones;
* `Config.marksAgree_prepared` : values and nested styles are marked as what they override;
* `Config.accessorsAgree_prepared` : accessors have the types of those that they override.

The files of a build come from such a suite (`Config.exists_prepares_of_compile`).
-/

namespace Appearance.Config

variable {c : Config} {tree : FileTree} {s l : Suite}

/-- Without a framework the code refers to none. -/
theorem framework_settings (hframework : c.framework = none) : c.settings.framework = none := by
  rw [settings, hframework]
  rfl

section Prepared

variable [Yaml.Parser] (hsuite : c.suite tree = .ok s) (hframework : c.framework = none)
  (h : Suite.Prepares c.settings s l)

include hsuite hframework h

/-- Every superclass of the generated classes is one of them, and is written as an open class. -/
theorem openSuperclasses_prepared (hd : ∀ t ∈ s.registered, (t.styles.map Style.name).Nodup)
    {a : Ancestor} (ha : a ∈ (l.prepared c.settings).1.classes)
    {p : String} (hp : a.style.head.inherits = some p) :
    ∃ b ∈ (l.prepared c.settings).1.classes, b.path = p ∧ b.style.IsOpen :=
  h.exists_open_superclass hd (fresh_suite hsuite) (plainAnimators_suite hsuite)
    (imported_suite hsuite hframework) (framework_settings hframework) ha hp

variable (hw : s.WellNamed)
  (hpaths : ((l.prepared c.settings).1.classes.map Ancestor.path).Nodup)

include hw hpaths

/-- No superclass of the generated classes is missing, and the way up from each of them ends. -/
theorem superclasses_prepared :
    (∀ a ∈ (l.prepared c.settings).1.classes, ∀ p, a.style.head.inherits = some p →
      ∃ b ∈ (l.prepared c.settings).1.classes, b.path = p) ∧
    WellFounded fun b a => (l.prepared c.settings).1.Derives a b :=
  ⟨fun _ ha _ hp => h.exists_superclass hw (fresh_suite hsuite)
      (imported_suite hsuite hframework) (framework_settings hframework) ha hp,
    h.wellFounded_derives hw (fresh_suite hsuite) (imported_suite hsuite hframework)
      (framework_settings hframework) hpaths⟩

variable (hno : s.NoAnimatorExtended)

include hno

/-- The marks on values and nested styles agree with the generated classes. -/
theorem marksAgree_prepared : Suite.MarksAgree (l.prepared c.settings).1 :=
  Suite.marksAgree_of_descent
    (fun _ ha => h.exists_descent hw.styleNames (fresh_suite hsuite)
      (imported_suite hsuite hframework) (framework_settings hframework) hno ha)
    (fun _ ha => h.findsLeaves hw ha) hpaths

/-- The types of accessors agree with what they override. -/
theorem accessorsAgree_prepared : Suite.AccessorsAgree (l.prepared c.settings).1 := by
  have hblank := blank_suite hsuite
  have himported := imported_suite hsuite hframework
  have hsettings := framework_settings hframework
  refine Suite.accessorsAgree_of_step (fun _ ha => ?marked) (fun _ _ _ ho => ?type)
    (fun _ ha hover => ?kept) (superclasses_prepared hsuite hframework h hw hpaths).2
  case marked =>
    exact h.isOverride_iff_overridesAccessor hw hblank himported hsettings hno hpaths ha
  case type => exact h.accessorType_of_overrides hw hblank himported hsettings hno hpaths ho
  case kept => exact (h.kept_of_mem_classes hw.styleNames hblank ha hover).2

end Prepared

end Appearance.Config
