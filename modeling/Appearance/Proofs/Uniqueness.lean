import Appearance.Proofs.Conditionals

/-!
# Names of a stylesheet that is loaded

Keys of a source are not kept as they are written: a declaration gives the name of a style, the
points of a key of a property become underscores, and a condition is spelled in one way. Loading
does not look for keys that become equal. So `Load.unique_iff_apart` says when the names of a
stylesheet are distinct: exactly if no two keys of one mapping become equal, and no two declarations
of the source and of the files that it imports.

Both sides of the equivalence range over every depth, over imported files and over the animator,
and each of the three kinds of keys has a lemma of its own that carries distinctness from nodes to
styles. `Apart` speaks of the source alone, so whether names are distinct can be decided before
anything is loaded. Failing it is no error: the last instance is a source in which all three kinds
of keys become equal and nothing is refused.
-/

namespace Appearance

open Appearance.Yaml (Node)

/-! ## Distinct names -/

/-- The keys of a style are distinct at every depth. -/
def Style.DistinctKeys (s : Style) : Prop := s.All fun u => (u.properties.map Property.key).Nodup

/-- The names of the styles are distinct, as are the keys of each style and the conditions of each
conditional value, at every depth. -/
structure Stylesheet.Unique (t : Stylesheet) : Prop where
  styles : (t.styles.map Style.name).Nodup
  keys : ∀ x ∈ t.allStyles, x.DistinctKeys
  conditions : ∀ v ∈ t.leaves, ∀ bs, (Value.conditional bs).Within v →
    bs.Pairwise fun a b => a.1.sameKey b.1 = false

/-- No two branches have one key if and only if the texts of their conditions are distinct. -/
theorem Value.pairwise_sameKey_iff {bs : List (Condition × Value)} :
    (bs.Pairwise fun a b => a.1.sameKey b.1 = false) ↔ (bs.map (·.1.raw)).Nodup := by
  simp only [List.Nodup, List.pairwise_map, Condition.sameKey, beq_eq_false_iff_ne]

/-- What is said of all styles of a stylesheet is said of its styles and animations, and of the
animator alone. -/
theorem Stylesheet.forall_allStyles_iff {t : Stylesheet} {P : Style → Prop} :
    (∀ x ∈ t.allStyles, x.All P) ↔
      (∀ x ∈ t.styles ++ t.animations, x.All P) ∧ ∀ a ∈ t.animator, P a := by
  rw [allStyles, animations, List.forall_mem_append, List.forall_mem_append, and_assoc]
  refine and_congr_right' ?_
  cases t.animator with
  | none => simp
  | some a =>
    have hall := @Style.all_iff P a
    simpa [and_comm] using hall

namespace Style

variable {ctx : SheetContext} {font : SymbolFont} {isBase : Bool} {s : Style}

/-- The style of a symbol font has its name and distinct keys. -/
theorem names_ofSymbolFont (h : ofSymbolFont ctx font isBase = .ok s) :
    s.name = symbolFontName ∧ s.DistinctKeys := by
  obtain ⟨light, regular, rfl⟩ := ofSymbolFont_eq_ok h
  refine ⟨rfl, all_mk.2 ⟨?_, fun k n hn => ?_⟩⟩
  · have hkeys : [Property.keyOf "lightFontName", Property.keyOf "regularFontName",
        Property.keyOf iconicFontStyle].Nodup := by
      decide +kernel
    cases isBase with
    | true => exact hkeys
    | false => exact hkeys.sublist (List.sublist_append_left [_, _] [_])
  · cases isBase <;> simp [Property.ofValue] at hn

end Style

namespace Load

/-- No two keys become equal: no two declared styles have one name, nor has a declared style that of
the style of a symbol font; no two keys of a style or of the animator become one key; and no two
keys of a conditional value become one condition. -/
structure Apart (options : LoadOptions) (ds : List Declaration) (last : Option (String × Node)) :
    Prop where
  styles : (ds.map (fun d => Style.declaredName d.declaration) ++
    options.symbolFont.toList.map fun _ => Style.symbolFontName).Nodup
  keys : ∀ body ∈ bodiesOf ds last, ∀ m, Style.Nests body m → (m.map Style.entryKey).Nodup
  animations : ((animationEntries last).map animationKey).Nodup
  conditions : ∀ n, IsValueNode ds last n → n.AllConditions List.Nodup

variable {read : Reader} {depth : Nat} {options : LoadOptions} {declaration dir text : String}
  {t : Stylesheet}

/-- The names of the styles are those that are declared, in order. -/
theorem map_name_styles [Yaml.Parser]
    (h : sourceIn read depth options declaration dir text = .ok t) :
    t.styles.map Style.name =
      (declarationsIn read depth dir text).map (fun d => Style.declaredName d.declaration) ++
        options.symbolFont.toList.map fun _ => Style.symbolFontName := by
  obtain ⟨own, font, hstyles, hfont, hbodied⟩ := (loaded_of_sourceIn h).exists_bodied
  have hfontNames : options.symbolFont.toList.map (fun _ => Style.symbolFontName) =
      font.map Style.name :=
    map_eq_of_forall₂ hfont fun f x hx => (Style.names_ofSymbolFont hx).1.symm
  rw [hstyles, List.map_append, hbodied.names, hfontNames]

/-- The keys of a stylesheet are those of the mappings and of the animator. -/
theorem forall_distinctKeys_iff [Yaml.Parser]
    (h : sourceIn read depth options declaration dir text = .ok t) :
    (∀ x ∈ t.allStyles, x.DistinctKeys) ↔
      (∀ body ∈ bodiesOf (declarationsIn read depth dir text) (animatorOf (itemsOf text)),
        ∀ m, Style.Nests body m → (m.map Style.entryKey).Nodup) ∧
      ((animationEntries (animatorOf (itemsOf text))).map animationKey).Nodup := by
  obtain ⟨own, font, hstyles, hfont, hbodied⟩ := (loaded_of_sourceIn h).exists_bodied
  have hfontKeys : ∀ x ∈ font, x.DistinctKeys := fun x hx => by
    obtain ⟨f, -, hf⟩ := exists_mem_of_forall₂ hfont hx
    exact (Style.names_ofSymbolFont hf).2
  have hanimator : (∀ a ∈ t.animator, (a.properties.map Property.key).Nodup) ↔
      ((animationEntries (animatorOf (itemsOf text))).map animationKey).Nodup := by
    rw [← hbodied.keys]
    cases t.animator <;> simp
  have hbodies : (∀ x ∈ own ++ t.animations, x.DistinctKeys) ↔ _ :=
    hbodied.all_iff fun u m hu => by rw [Style.map_key_eq hu]
  refine Stylesheet.forall_allStyles_iff.trans (and_congr (.trans ?_ hbodies) hanimator)
  rw [hstyles, List.append_assoc]
  simp only [List.forall_mem_append]
  exact and_congr_right' (and_iff_right hfontKeys)

/-- The conditions of a stylesheet are those of the nodes that are read. -/
theorem forall_conditions_iff [Yaml.Parser]
    (h : sourceIn read depth options declaration dir text = .ok t) :
    (∀ v ∈ t.leaves, v.AllConditions List.Nodup) ↔
      ∀ n, IsValueNode (declarationsIn read depth dir text) (animatorOf (itemsOf text)) n →
        n.AllConditions List.Nodup :=
  forall_leaves_iff (fun _ hv bs hbs => absurd hbs (hv bs))
    (fun _ _ hv => hv.allConditions_iff List.Perm.nodup_iff) h

/-- For a source in a directory. -/
theorem unique_iff_of_sourceIn [Yaml.Parser]
    (h : sourceIn read depth options declaration dir text = .ok t) :
    t.Unique ↔
      Apart options (declarationsIn read depth dir text) (animatorOf (itemsOf text)) := by
  have hnames := map_name_styles h
  have hkeys := forall_distinctKeys_iff h
  have hconditions := forall_conditions_iff h
  constructor
  · intro hunique
    have hall := hkeys.1 hunique.keys
    exact ⟨hnames ▸ hunique.styles, hall.1, hall.2, hconditions.1 fun v hv bs hbs =>
      Value.pairwise_sameKey_iff.1 (hunique.conditions v hv bs hbs)⟩
  · intro hapart
    exact ⟨hnames ▸ hapart.styles, hkeys.2 ⟨hapart.keys, hapart.animations⟩,
      fun v hv bs hbs => Value.pairwise_sameKey_iff.2 (hconditions.2 hapart.conditions v hv bs hbs)⟩

/-- The names of a stylesheet that is loaded, from a source or from a file, are distinct if and only
if no two keys of its source, and of the files that it imports, become equal. -/
theorem unique_iff_apart [Yaml.Parser] (read : Reader) (depth : Nat) (options : LoadOptions)
    (declaration : String) :
    (∀ dir text t, sourceIn read depth options declaration dir text = .ok t →
      (t.Unique ↔
        Apart options (declarationsIn read depth dir text) (animatorOf (itemsOf text)))) ∧
    ∀ path t, file read (depth + 1) options path declaration = .ok t →
      ∃ text, read path = some text ∧
        (t.Unique ↔
          Apart options (declarationsIn read depth ((Path.parent? path).getD "") text)
            (animatorOf (itemsOf text))) := by
  refine ⟨fun dir text t h => unique_iff_of_sourceIn h, fun path t h => ?_⟩
  obtain ⟨rest, text, hrest, hread, hsource⟩ := exists_of_file_ok h
  cases hrest
  exact ⟨text, hread, unique_iff_of_sourceIn hsource⟩

/-- A style with a conditional value. -/
def labelSource : String :=
  "Label for UILabel:\n  text.size:\n    width > 3: 1\n    default: 0\n"

/-- A file of that source. -/
def labelFile : FileTree := ⟨[(["label.yml"], .file labelSource)]⟩

/-- A style with a conditional value beside that of a symbol font. -/
theorem unique_iff_apart_labelSource :
    (∃ t, sourceIn (fun _ => none) 0 ⟨[], some .placeholder⟩ "Theme" "" labelSource = .ok t ∧
      t.styles.map Style.name = ["Label", "__SymbolFont"] ∧
      (t.Unique ↔ Apart ⟨[], some .placeholder⟩ (declarationsIn (fun _ => none) 0 "" labelSource)
        (animatorOf (itemsOf labelSource)))) ∧
    ∃ t, file labelFile.read? 1 ⟨[], none⟩ "label.yml" "Theme" = .ok t ∧
      t.styles.map Style.name = ["Label"] ∧
      ∃ text, labelFile.read? "label.yml" = some text ∧
        (t.Unique ↔
          Apart ⟨[], none⟩
            (declarationsIn labelFile.read? 0 ((Path.parent? "label.yml").getD "") text)
            (animatorOf (itemsOf text))) := by
  have hsource : (sourceIn (fun _ => none) 0 ⟨[], some .placeholder⟩ "Theme" ""
      labelSource).toOption.any
      (fun t => t.styles.map Style.name == ["Label", "__SymbolFont"]) = true := by
    decide +kernel
  have hfile : (file labelFile.read? 1 ⟨[], none⟩ "label.yml" "Theme").toOption.any
      (fun t => t.styles.map Style.name == ["Label"]) = true := by
    decide +kernel
  obtain ⟨t, ht, hnames⟩ := exists_ok_of_any hsource
  obtain ⟨u, hu, hnames'⟩ := exists_ok_of_any hfile
  exact ⟨⟨t, ht, by simpa using hnames, (unique_iff_apart _ _ _ _).1 _ _ _ ht⟩,
    u, hu, by simpa using hnames', (unique_iff_apart _ _ _ _).2 _ _ hu⟩

/-- Two keys of the mapping give one condition. -/
def repeatsCondition : Node → Bool
  | .mapping entries => !decide (entries.map Node.conditionText).Nodup
  | _ => false

/-- A source in which two keys of one style give one condition. -/
def equalConditions : String := "Label:\n  size:\n    width>3: 1\n    width > 3: 2\n"

/-- Two conditions of this source become equal. -/
theorem isValueNode_equalConditions :
    ∃ n, IsValueNode (declarationsIn (fun _ => none) 0 "" equalConditions)
      (animatorOf (itemsOf equalConditions)) n ∧ ¬ n.AllConditions List.Nodup := by
  have hbody : ((bodiesOf (declarationsIn (fun _ => none) 0 "" equalConditions)
      (animatorOf (itemsOf equalConditions))).any fun body => body.any fun e =>
        (Style.valueNode? e).any repeatsCondition) = true := by
    decide +kernel
  obtain ⟨body, hbody, hentry⟩ := List.any_eq_true.1 hbody
  obtain ⟨e, he, hnode⟩ := List.any_eq_true.1 hentry
  obtain ⟨n, hn, hrepeats⟩ : ∃ n, Style.valueNode? e = some n ∧ repeatsCondition n = true := by
    simpa [Option.any_eq_true] using hnode
  refine ⟨n, ⟨body, hbody, body, .self body, e, he, hn⟩, fun hall => ?_⟩
  cases n with
  | mapping entries => simp [repeatsCondition, hall entries (.self _)] at hrepeats
  | _ => cases hrepeats

/-- Two declarations of one style, two keys of one property and two conditions of one spelling are
loaded, and all are kept. -/
theorem loads_equal_names :
    (∃ t, source (fun _ => none) 0 ⟨[], none⟩ "Theme" "Label: {}\nLabel for UILabel: {}\n" = .ok t ∧
      t.styles.map Style.name = ["Label", "Label"] ∧ ¬ t.Unique) ∧
    (∃ t, source (fun _ => none) 0 ⟨[], none⟩ "Theme" "Label:\n  text.size: 1\n  text_size: 2\n" =
        .ok t ∧
      t.styles.map (fun x => x.properties.map Property.key) = [["text_size", "text_size"]] ∧
      ¬ t.Unique) ∧
    ∃ t, source (fun _ => none) 0 ⟨[], none⟩ "Theme" equalConditions = .ok t ∧
      (∃ v ∈ t.leaves, ¬ v.AllConditions List.Nodup) ∧ ¬ t.Unique := by
  have hstyles : (source (fun _ => none) 0 ⟨[], none⟩ "Theme"
      "Label: {}\nLabel for UILabel: {}\n").toOption.any
      (fun t => t.styles.map Style.name == ["Label", "Label"]) = true := by
    decide +kernel
  have hkeys : (source (fun _ => none) 0 ⟨[], none⟩ "Theme"
      "Label:\n  text.size: 1\n  text_size: 2\n").toOption.any
      (fun t => t.styles.map (fun x => x.properties.map Property.key) ==
        [["text_size", "text_size"]]) = true := by
    decide +kernel
  have hconditions : (source (fun _ => none) 0 ⟨[], none⟩ "Theme" equalConditions).toOption.any
      (fun _ => true) = true := by
    decide +kernel
  obtain ⟨t, ht, hnames⟩ := exists_ok_of_any hstyles
  obtain ⟨u, hu, hnames'⟩ := exists_ok_of_any hkeys
  obtain ⟨w, hw, -⟩ := exists_ok_of_any hconditions
  rw [beq_iff_eq] at hnames hnames'
  have hall : ¬ ∀ v ∈ w.leaves, v.AllConditions List.Nodup := fun hall => by
    obtain ⟨n, hn, hrepeats⟩ := isValueNode_equalConditions
    exact hrepeats ((forall_conditions_iff (source_eq_sourceIn _ _ _ _ _ ▸ hw)).1 hall n hn)
  refine ⟨⟨t, ht, hnames, fun h => ?_⟩, ⟨u, hu, hnames', fun h => ?_⟩, w, hw, by simpa using hall,
    fun h => hall fun v hv bs hbs => Value.pairwise_sameKey_iff.1 (h.conditions v hv bs hbs)⟩
  · have hnodup := h.styles
    rw [hnames] at hnodup
    simp at hnodup
  · obtain ⟨x, hx, hkeys⟩ : ∃ x ∈ u.styles, x.properties.map Property.key =
        ["text_size", "text_size"] :=
      List.mem_map.1 (hnames' ▸ List.mem_singleton_self _)
    have hnodup := (h.keys x (List.mem_append_left _ hx)).self
    rw [hkeys] at hnodup
    simp at hnodup

end Load

end Appearance
