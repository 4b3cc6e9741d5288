import Appearance.Build.Run
import Appearance.Proofs.RegistryViews
import Appearance.Proofs.Runs

/-!
# Builds seen through their suites

A build gathers its stylesheets in a registry and works on that. Nothing else comes of it than if it
worked on the suite that the registry is seen as: what `Config.registry` gathers is coherent
(`Config.coherent_registry`), so linking and preparing it are linking and preparing a suite
(`Config.compile_eq`). What is proved of suites is so proved of builds.

What holds of every stylesheet that is loaded holds of those of the suite
(`Config.forall_mem_suite`), whatever reads the documents.

The refinement between registries and suites is proved in `Proofs.RegistryViews` for calls one at a
time. Here it is put to use for a build: the calls are those of `Config.registerSources`, one for
each source, and the registry that comes of them is coherent because it starts empty. Errors agree
too, so a configuration fails in the same way and with the same message.
-/

namespace Appearance.Config

variable [Yaml.Parser] {c : Config} {tree : FileTree}

/-! ## Registering -/

/-- Registering sources keeps a registry coherent. -/
theorem coherent_registerSources {sources : List Source} {r r' : Registry} (hr : r.Coherent)
    (h : c.registerSources tree sources r = .ok r') : r'.Coherent := by
  induction sources generalizing r with
  | nil =>
    cases h
    exact hr
  | cons source sources ih =>
    unfold registerSources at h
    split at h
    · cases h
    · next sheet _ =>
      split at h
      · cases h
      · next registered _ heq =>
        have hregistered := hr.register sheet
        rw [heq] at hregistered
        exact ih hregistered h

/-- Registering leaves the slot of the imported stylesheet as it is. -/
theorem imported?_registerSources {sources : List Source} {r r' : Registry}
    (h : c.registerSources tree sources r = .ok r') : r'.imported? = r.imported? := by
  induction sources generalizing r with
  | nil =>
    cases h
    rfl
  | cons source sources ih =>
    unfold registerSources at h
    split at h
    · cases h
    · next sheet _ =>
      split at h
      · cases h
      · next registered _ heq =>
        have hkept : (r.register sheet).1.imported? = r.imported? := by
          rw [Registry.register]
          split <;> rfl
        rw [heq] at hkept
        exact (ih h).trans hkept

/-- What is gathered could have come about by calls alone, as it did. -/
theorem coherent_registry {r : Registry} (h : c.registry tree = .ok r) : r.Coherent := by
  unfold registry at h
  obtain ⟨registered, hregister, h⟩ := bind_eq_ok.1 h
  have hr := coherent_registerSources Registry.coherent_empty hregister
  unfold setFramework at h
  split at h
  · cases h
    exact hr
  · obtain ⟨sheet, -, rfl⟩ := map_eq_ok.1 h
    exact hr.setImported sheet

/-- Registered stylesheets have different names. -/
theorem nodup_names_suite {s : Suite} (h : c.suite tree = .ok s) :
    (s.registered.map Stylesheet.name).Nodup := by
  obtain ⟨r, hr, rfl⟩ := map_eq_ok.1 h
  rw [Registry.suite, List.map_map]
  exact (coherent_registry hr).names

/-- Without a framework nothing is imported. -/
theorem imported_suite {s : Suite} (h : c.suite tree = .ok s) (hframework : c.framework = none) :
    s.imported = none := by
  obtain ⟨r, hr, rfl⟩ := map_eq_ok.1 h
  unfold registry at hr
  obtain ⟨registered, hregister, hr⟩ := bind_eq_ok.1 hr
  simp only [setFramework, frameworkSource?, hframework, Option.map_none] at hr
  cases hr
  rw [Registry.suite, imported?_registerSources hregister]
  rfl

section Loaded

variable {p : Stylesheet → Prop} (hload : ∀ source t, c.loadSource tree source = .ok t → p t)

include hload

/-- What holds of every loaded stylesheet holds of the registered ones. -/
theorem forall_mem_registerSources {sources : List Source} {r r' : Registry} (hr : r.Coherent)
    (h : c.registerSources tree sources r = .ok r') (hall : ∀ t ∈ r.suite.registered, p t) :
    ∀ t ∈ r'.suite.registered, p t := by
  induction sources generalizing r with
  | nil =>
    cases h
    exact hall
  | cons source sources ih =>
    unfold registerSources at h
    split at h
    · cases h
    · next t ht =>
      split at h
      · cases h
      · next registered _ heq =>
        have hcoherent := hr.register t
        have hregistered := Registry.suite_register hr t
        rw [heq] at hcoherent hregistered
        refine ih hcoherent h ?_
        unfold Suite.register at hregistered
        split at hregistered
        · cases hregistered
        · have hsuite := Except.ok.inj hregistered
          dsimp only at hsuite ⊢
          rw [← hsuite]
          exact List.forall_mem_append.2 ⟨hall, List.forall_mem_singleton.2 (hload source t ht)⟩

/-- What holds of every stylesheet that is loaded holds of those that are registered. -/
theorem forall_mem_suite {s : Suite} (h : c.suite tree = .ok s) : ∀ t ∈ s.registered, p t := by
  obtain ⟨r, hgathered, rfl⟩ := map_eq_ok.1 h
  unfold registry at hgathered
  obtain ⟨registered, hregister, hgathered⟩ := bind_eq_ok.1 hgathered
  have hr := coherent_registerSources Registry.coherent_empty hregister
  have hall := forall_mem_registerSources hload Registry.coherent_empty hregister nofun
  unfold setFramework at hgathered
  split at hgathered
  · cases hgathered
    exact hall
  · obtain ⟨t, -, rfl⟩ := map_eq_ok.1 hgathered
    rw [← Registry.suite_setImported hr]
    exact hall

end Loaded

/-! ## Generating -/

/-- Files are generated from the suite, linked and prepared. -/
theorem compile_eq (c : Config) (tree : FileTree) : c.compile tree = (do
    c.checkPaths tree
    let suite ← c.suite tree
    let suite ← ofSuite suite.linked
    match suite.prepared c.settings with
    | (ready, .ok ()) => ofSuite (ready.generateAll c.settings)
    | (_, .error e) => .error (.suite e)) := by
  unfold compile suite
  refine congrArg _ (funext fun _ => ?_)
  cases hregistry : c.registry tree with
  | error e => rfl
  | ok r =>
    have hlinked := Registry.suite_link r
    have hr := (coherent_registry hregistry).link
    dsimp only [Except.map, bind, Except.bind]
    rw [hlinked]
    generalize r.link = result at hr ⊢
    obtain ⟨linked, answer⟩ := result
    cases answer with
    | error e => rfl
    | ok _ =>
      obtain ⟨-, hprepared⟩ := Registry.suite_prepared hr c.settings
      dsimp only [Except.map, ofSuite]
      rw [← hprepared]
      generalize linked.prepared c.settings = result
      obtain ⟨ready, answer⟩ := result
      cases answer <;> rfl

end Appearance.Config
