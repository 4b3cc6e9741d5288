import Appearance.Proofs.Contents
import Appearance.Proofs.Loading

/-!
# How mappings are read

A mapping of a source becomes a style: each entry gives one property, in order. An entry nests a
style (`Style.nestedEntries?`), lists keyframes, or gives a value (`Style.valueNode?`).
`Property.Reads` says of a property that it is read from an entry, whatever the passes of loading
that follow have put into the heads, and `Style.reads_ofEntry` that a loaded style is read from its
mapping.

A level of a style has the keys of its mapping (`Style.map_key_eq`) and the values of its nodes
(`Style.forall_values_iff`). What is so said of one level is said of every depth
(`Style.all_iff_nests`).
-/

namespace Appearance

open Appearance.Yaml (Node)

/-! ## Merged entries -/

namespace Yaml.Node

/-- An entry of the changed mapping was there, or it has the new value. -/
theorem mem_setEntry {key value : Node} {entries : List (Node × Node)} {e : Node × Node}
    (h : e ∈ setEntry key value entries) : e ∈ entries ∨ e.2 = value := by
  induction entries with
  | nil =>
    rw [setEntry, List.mem_singleton] at h
    exact .inr (by rw [h])
  | cons d entries ih =>
    rw [setEntry] at h
    split at h
    · rcases List.mem_cons.1 h with rfl | h
      · exact .inr rfl
      · exact .inl (List.mem_cons_of_mem _ h)
    · rcases List.mem_cons.1 h with rfl | h
      · exact .inl List.mem_cons_self
      · exact (ih h).imp_left (List.mem_cons_of_mem _)

/-- After several changes an entry was there or has one of the new values. -/
theorem mem_foldl_setEntry {entries merged : List (Node × Node)} {e : Node × Node}
    (h : e ∈ entries.foldl (fun m e => setEntry e.1 e.2 m) merged) :
    e ∈ merged ∨ ∃ d ∈ entries, e.2 = d.2 := by
  induction entries generalizing merged with
  | nil => exact .inl h
  | cons d entries ih =>
    rcases ih h with h | ⟨d', hd', he⟩
    · rcases mem_setEntry h with h | h
      · exact .inl h
      · exact .inr ⟨d, List.mem_cons_self, h⟩
    · exact .inr ⟨d', List.mem_cons_of_mem _ hd', he⟩

/-- The values of merged entries come from the mappings that are merged. -/
theorem exists_of_mem_mergedEntries {items : List Node} {e : Node × Node}
    (h : e ∈ mergedEntries items) :
    ∃ entries, mapping entries ∈ items ∧ ∃ d ∈ entries, e.2 = d.2 := by
  revert h
  refine List.foldlRecOn items _ (motive := fun merged => e ∈ merged →
    ∃ entries, mapping entries ∈ items ∧ ∃ d ∈ entries, e.2 = d.2) (by simp) ?_
  intro merged ih item hitem h
  split at h
  · rcases mem_foldl_setEntry h with h | hd
    · exact ih h
    · exact ⟨_, hitem, hd⟩
  · exact ih h

/-- An item is at most as high as all items. -/
theorem height_le_of_mem_items {items : List Node} {n : Node} (h : n ∈ items) :
    n.height ≤ heightOfItems items := by
  induction items with
  | nil => cases h
  | cons m items ih =>
    rw [heightOfItems]
    rcases List.mem_cons.1 h with rfl | h
    · exact le_max_left _ _
    · exact (ih h).trans (le_max_right _ _)

/-- The value of an entry is at most as high as all entries. -/
theorem height_le_of_mem_entries {entries : List (Node × Node)} {e : Node × Node}
    (h : e ∈ entries) : e.2.height ≤ heightOfEntries entries := by
  induction entries with
  | nil => cases h
  | cons d entries ih =>
    obtain ⟨k, v⟩ := d
    rw [heightOfEntries]
    rcases List.mem_cons.1 h with rfl | h
    · exact (le_max_right _ _).trans (le_max_left _ _)
    · exact (ih h).trans (le_max_right _ _)

/-- Merged entries are nested less deep than the sequence of the mappings. -/
theorem height_lt_of_mem_mergedEntries {items : List Node} {e : Node × Node}
    (h : e ∈ mergedEntries items) : e.2.height + 1 < (sequence items).height := by
  obtain ⟨entries, hentries, d, hd, he⟩ := exists_of_mem_mergedEntries h
  have hitem := height_le_of_mem_items hentries
  have hentry := height_le_of_mem_entries hd
  have hmapping : (mapping entries).height = heightOfEntries entries + 1 := by rw [height]
  have hsequence : (sequence items).height = heightOfItems items + 1 := by rw [height]
  rw [he]
  omega

end Yaml.Node

theorem SheetContext.keyText_eq_ok {ctx : SheetContext} {key : Node} {text : String} :
    ctx.keyText key = .ok text ↔ key.scalarText? = some text := by
  unfold keyText
  cases key.scalarText? with
  | none => simp [fail]
  | some t => simp

theorem SheetContext.illegal_eq_ok {α : Type} {ctx : SheetContext} {key : String}
    {x : Except ValueError α} {a : α} : ctx.illegal key x = .ok a ↔ x = .ok a := by
  cases x <;> simp [illegal]

/-! ## Entries -/

namespace Style

/-- The entries of the style that an entry nests. -/
def nestedEntries? (e : Node × Node) : Option (List (Node × Node)) :=
  match e.2 with
  | .sequence items =>
    if e.1.scalarText? ≠ some keyFramesKey ∧ isNested items = true then
      some (Node.mergedEntries items)
    else none
  | _ => none

/-- The node of an entry that is read as a value: not the items of a nested style, nor a list of
keyframes. -/
def valueNode? (e : Node × Node) : Option Node :=
  match e.2 with
  | .sequence items =>
    if e.1.scalarText? = some keyFramesKey ∨ isNested items = true then none
    else some (.sequence items)
  | node => some node

/-- The value that an entry gives. -/
inductive Gives (ctx : SheetContext) (e : Node × Node) : Value → Prop
  | frames {items : List Node} {frames : List KeyFrame} : e.1.scalarText? = some keyFramesKey →
    e.2 = .sequence items → items.mapM Value.keyFrameOfNode = .ok frames →
    Gives ctx e (.array (frames.map Value.keyFrame))
  | repeatCount {node : Node} {c : RepeatCount} : valueNode? e = some node →
    Value.repeatCountOfNode (ctx.values repeatCountKey) node = .ok c → Gives ctx e (.repeatCount c)
  | value {key : String} {node : Node} {v : Value} : valueNode? e = some node →
    Value.ofNode (ctx.values key) node = .ok v → Gives ctx e v

end Style

/-- The property is read from the entry. -/
inductive Property.Reads (ctx : SheetContext) : Node × Node → Property → Prop
  | leaf {e : Node × Node} {key : String} {k : PropertyHead} {v : Value} :
    e.1.scalarText? = some key → k.key = keyOf key → Style.Gives ctx e v → Reads ctx e (.leaf k v)
  | nested {e : Node × Node} {key : String} {k : PropertyHead} {entries : List (Node × Node)}
    {h : StyleHead} {ps : List Property} :
    e.1.scalarText? = some key → k.key = keyOf key → Style.nestedEntries? e = some entries →
    List.Forall₂ (Reads ctx) entries ps → Reads ctx e (.nested k (.mk h ps))

namespace Style

/-- The properties of the style are read from the entries, one by one. -/
def Reads (ctx : SheetContext) (entries : List (Node × Node)) (s : Style) : Prop :=
  List.Forall₂ (Property.Reads ctx) entries s.properties

variable {ctx : SheetContext} {e : Node × Node}

/-- An entry that gives a value nests no style. -/
theorem nestedEntries?_of_valueNode? {node : Node} (h : valueNode? e = some node) :
    nestedEntries? e = none := by
  unfold valueNode? at h
  unfold nestedEntries?
  split at h
  · next items he =>
    split at h
    · cases h
    · next hnot =>
      rw [not_or] at hnot
      simp [hnot.2]
  · rfl

theorem Gives.nestedEntries?_eq_none {v : Value} (h : Gives ctx e v) : nestedEntries? e = none := by
  cases h with
  | frames hkey he _ =>
    unfold nestedEntries?
    rw [he]
    simp [hkey]
  | repeatCount hnode _ => exact nestedEntries?_of_valueNode? hnode
  | value hnode _ => exact nestedEntries?_of_valueNode? hnode

/-! ## Properties -/

/-- A value is read from its entry. -/
theorem reads_leafOfNode {key : String} {node : Node} {p : Property}
    (hkey : e.1.scalarText? = some key) (hnode : valueNode? e = some node)
    (h : leafOfNode ctx key node = .ok p) : p.Reads ctx e := by
  unfold leafOfNode at h
  obtain ⟨v, hv, rfl⟩ := map_eq_ok.1 h
  refine .leaf hkey rfl ?_
  rw [SheetContext.illegal_eq_ok] at hv
  split at hv
  · next hrepeat =>
    obtain ⟨c, hc, rfl⟩ := map_eq_ok.1 hv
    simp only [Bool.and_eq_true, decide_eq_true_eq] at hrepeat
    exact .repeatCount hnode (hrepeat.1 ▸ hc)
  · exact .value hnode hv

/-- A property is read from its entry, whatever it is. -/
theorem reads_propertyOfNode {depth : Nat} {key : String} {p : Property}
    (hkey : e.1.scalarText? = some key) (hdepth : e.2.height < depth)
    (h : propertyOfNode ctx depth key e.2 = .ok p) : p.Reads ctx e := by
  -- the depth stays above the height of the node, so the bound never cuts the reading short
  induction depth generalizing e key p with
  | zero => omega
  | succ depth ih =>
    obtain ⟨keyNode, node⟩ := e
    unfold propertyOfNode at h
    dsimp only at hkey hdepth h
    split at h
    · next items =>
      split at h
      · next hframes =>
        obtain ⟨frames, hok, rfl⟩ := map_eq_ok.1 h
        rw [SheetContext.illegal_eq_ok] at hok
        exact .leaf hkey rfl (.frames (by rw [hkey, hframes]) rfl hok)
      · next hframes =>
        have hkey' : keyNode.scalarText? ≠ some keyFramesKey := by simpa [hkey] using hframes
        split at h
        · next hnested =>
          obtain ⟨ps, hps, h⟩ := bind_eq_ok.1 h
          cases h
          have hentries : nestedEntries? (keyNode, .sequence items) =
              some (Node.mergedEntries items) := by
            simp [nestedEntries?, hkey', hnested]
          refine .nested hkey rfl hentries ?_
          refine forall₂_imp_of_mem (forall₂_of_mapM hps) fun d hd q _ hq => ?_
          obtain ⟨key', hkey', hq⟩ := bind_eq_ok.1 hq
          have hheight := Node.height_lt_of_mem_mergedEntries hd
          exact ih (SheetContext.keyText_eq_ok.1 hkey') (by omega) hq
        · next hnested =>
          exact reads_leafOfNode hkey (by simp [valueNode?, hkey', hnested]) h
    · next hnot =>
      refine reads_leafOfNode hkey ?_ h
      unfold valueNode?
      split
      · next items hitems => exact absurd hitems (hnot items)
      · rfl

theorem forall₂_reads_propertiesOfEntries {entries : List (Node × Node)} {ps : List Property}
    (h : propertiesOfEntries ctx entries = .ok ps) :
    List.Forall₂ (Property.Reads ctx) entries ps :=
  (forall₂_of_mapM h).imp fun e p hp => by
    obtain ⟨key, hkey, hp⟩ := bind_eq_ok.1 hp
    exact reads_propertyOfNode (SheetContext.keyText_eq_ok.1 hkey) (Nat.lt_succ_self _) hp

end Style

/-! ## Styles -/

theorem Property.Reads.opened {ctx : SheetContext} {e : Node × Node} {p : Property}
    (h : p.Reads ctx e) : p.opened.Reads ctx e := by
  cases h with
  | leaf hkey hk hv => exact .leaf hkey hk hv
  | nested hkey hk hentries hps => exact .nested hkey hk hentries hps

namespace Style

variable {ctx : SheetContext} {entries : List (Node × Node)}

theorem reads_mk {h : StyleHead} {ps : List Property} :
    (mk h ps).Reads ctx entries ↔ List.Forall₂ (Property.Reads ctx) entries ps := Iff.rfl

theorem Reads.withHead {s : Style} (h : s.Reads ctx entries) (head : StyleHead) :
    (s.withHead head).Reads ctx entries := h

/-- Changing nested styles by what keeps their mappings keeps that of the style. -/
theorem Reads.mapStyle {h head : StyleHead} {ps : List Property} {f : Style → Style}
    (hps : (mk h ps).Reads ctx entries)
    (hf : ∀ k n, Property.nested k n ∈ ps → ∀ es, n.Reads ctx es → (f n).Reads ctx es) :
    (mk head (ps.map (Property.mapStyle f))).Reads ctx entries := by
  rw [reads_mk] at hps ⊢
  rw [List.forall₂_map_right_iff]
  refine forall₂_imp_of_mem hps fun e _ p hp h => ?_
  cases h with
  | leaf hkey hk hv => exact .leaf hkey hk hv
  | @nested _ key k es nh nps hkey hk hentries hnested =>
    have hread := hf k (mk nh nps) hp es hnested
    rw [Property.mapStyle_nested]
    generalize f (mk nh nps) = n at hread ⊢
    obtain ⟨nh', nps'⟩ := n
    exact .nested hkey hk hentries hread

theorem Reads.adoptIn (sheet : String) {s : Style} (h : s.Reads ctx entries) (parent : String) :
    (s.adoptIn sheet parent).Reads ctx entries := by
  induction s using Style.induction generalizing entries parent with
  | mk head ps ih =>
    rw [Style.adoptIn, adoptEach_eq]
    exact h.mapStyle fun k n hn es hes => ih k n hn hes head.name

theorem Reads.adopt (sheet : String) {s : Style} (h : s.Reads ctx entries) :
    (s.adopt sheet).Reads ctx entries := by
  obtain ⟨head, ps⟩ := s
  rw [Style.adopt, adoptEach_eq]
  exact h.mapStyle fun k n _ es hes => hes.adoptIn sheet head.name

@[simp] theorem name_adopt (sheet : String) (s : Style) : (s.adopt sheet).name = s.name := by
  obtain ⟨head, ps⟩ := s
  rw [Style.adopt]
  rfl

/-- The name that a declaration gives to its style. -/
def declaredName (declaration : String) : String := (StyleHead.ofDeclaration declaration).name

/-- A style is read from the mapping of its entry and has the name that is declared. -/
theorem reads_ofEntry {declaration : String} {node : Node} {s : Style}
    (h : ofEntry ctx declaration node = .ok s) :
    ∃ entries, node = .mapping entries ∧ s.Reads ctx entries ∧
      s.name = declaredName declaration := by
  unfold ofEntry at h
  split at h
  · next entries =>
    obtain ⟨ps, hps, rfl⟩ := map_eq_ok.1 h
    refine ⟨entries, rfl, Reads.adopt _ ?_, name_adopt _ _⟩
    have hread := forall₂_reads_propertiesOfEntries hps
    unfold ofDeclaration
    rw [reads_mk]
    split
    · rw [List.forall₂_map_right_iff]
      exact hread.imp fun e p hp => hp.opened
    · exact hread
  · cases h

/-- The animator of a mapping has an animation for each entry, in order. -/
theorem animations_animatorOfNode {name : String} {node : Node} {a : Style}
    (h : animatorOfNode ctx name node = .ok a) :
    ∃ entries, node = .mapping entries ∧ a.name = name ∧
      List.Forall₂ (fun e p => animationOfEntry ctx name e = .ok p) entries a.properties := by
  unfold animatorOfNode at h
  split at h
  · next entries =>
    obtain ⟨ps, hps, rfl⟩ := map_eq_ok.1 h
    exact ⟨entries, rfl, rfl, forall₂_of_mapM hps⟩
  · cases h

/-- An animation is read from the mapping of its entry. -/
theorem reads_animationOfEntry {name : String} {e : Node × Node} {p : Property}
    (h : animationOfEntry ctx name e = .ok p) :
    ∃ declaration entries k x, e.1.scalarText? = some declaration ∧ e.2 = .mapping entries ∧
      p = .nested k x ∧ x.Reads ctx entries ∧ x.name = declaredName declaration ∧
      k.key = Property.keyOf (declaredName declaration) := by
  obtain ⟨declaration, hdeclaration, h⟩ := bind_eq_ok.1 h
  obtain ⟨s, hs, h⟩ := bind_eq_ok.1 h
  cases h
  obtain ⟨entries, hentries, hread, hname⟩ := reads_ofEntry hs
  refine ⟨declaration, entries, _, _, SheetContext.keyText_eq_ok.1 hdeclaration, hentries, rfl,
    hread.withHead _, hname, ?_⟩
  rw [← hname]
  rfl

/-! ## What is said at every depth -/

/-- The key that an entry gives to its property. -/
def entryKey (e : Node × Node) : String := Property.keyOf (e.1.scalarText?.getD "")

/-- The style of the first mapping has that of the second one nested in it, at some depth, or is
that. -/
inductive Nests : List (Node × Node) → List (Node × Node) → Prop
  | self (entries : List (Node × Node)) : Nests entries entries
  | nested {entries inner m : List (Node × Node)} {e : Node × Node} : e ∈ entries →
    nestedEntries? e = some inner → Nests inner m → Nests entries m

/-- What is said of one level by the style as by the mapping, is said of every depth. -/
theorem all_iff_nests {P : Style → Prop} {S : List (Node × Node) → Prop}
    (hPS : ∀ (u : Style) m, u.Reads ctx m → (P u ↔ S m)) {s : Style} (h : s.Reads ctx entries) :
    s.All P ↔ ∀ m, Nests entries m → S m := by
  induction s using Style.induction generalizing entries with
  | mk head ps ih =>
    rw [all_mk]
    constructor
    · rintro ⟨hself, hnested⟩ m hm
      cases hm with
      | self => exact (hPS _ _ h).1 hself
      | @nested _ inner _ e he hinner hm =>
        obtain ⟨p, hp, hread⟩ := exists_mem_of_forall₂ h.flip he
        cases hread with
        | leaf _ _ hv =>
          rw [hv.nestedEntries?_eq_none] at hinner
          cases hinner
        | @nested _ _ k es nh nps _ _ hes hps =>
          rw [hes] at hinner
          cases hinner
          exact (ih k (mk nh nps) hp hps).1 (hnested k _ hp) m hm
    · intro hall
      refine ⟨(hPS _ _ h).2 (hall entries (.self entries)), fun k n hn => ?_⟩
      obtain ⟨e, he, hread⟩ := exists_mem_of_forall₂ h hn
      cases hread with
      | nested _ _ hes hps =>
        exact (ih k _ hn hps).2 fun m hm => hall m (.nested he hes hm)

theorem map_key_eq {s : Style} (h : s.Reads ctx entries) :
    s.properties.map Property.key = entries.map entryKey := by
  refine (map_eq_of_forall₂ h fun e p hp => ?_).symm
  cases hp with
  | leaf hkey hk _ => rw [entryKey, hkey, Option.getD_some, Property.key, Property.head, hk]
  | nested hkey hk _ _ => rw [entryKey, hkey, Option.getD_some, Property.key, Property.head, hk]

/-- The values at every depth of a style are those of its levels. -/
theorem forall_leaves_iff_all {Q : Value → Prop} {s : Style} :
    (∀ v ∈ s.leaves, Q v) ↔ s.All fun u => ∀ q ∈ u.properties, ∀ v ∈ q.value?, Q v := by
  induction s using Style.induction with
  | mk head ps ih =>
    rw [all_mk, leaves]
    constructor
    · intro h
      refine ⟨fun q hq v hv => ?_, fun k n hn => (ih k n hn).1 fun v hv => ?_⟩
      · cases q with
        | leaf k u =>
          cases hv
          exact h v (mem_leavesOfEach.2 (.inl ⟨k, hq⟩))
        | nested k n => cases hv
      · exact h v (mem_leavesOfEach.2 (.inr ⟨k, n, hn, hv⟩))
    · rintro ⟨hself, hnested⟩ v hv
      rcases mem_leavesOfEach.1 hv with ⟨k, hk⟩ | ⟨k, n, hn, hvn⟩
      · exact hself _ hk v rfl
      · exact (ih k n hn).2 (hnested k n hn) v hvn

/-- What is said of a value as of its node is said of the values of a style as of the nodes in its
mapping. -/
theorem forall_values_iff {Q : Value → Prop} {N : Node → Prop}
    (hQN : ∀ e v, Gives ctx e v → (Q v ↔ ∀ n ∈ valueNode? e, N n)) {s : Style}
    (h : s.Reads ctx entries) :
    (∀ q ∈ s.properties, ∀ v ∈ q.value?, Q v) ↔ ∀ e ∈ entries, ∀ n ∈ valueNode? e, N n := by
  constructor
  · intro hQ e he n hn
    obtain ⟨p, hp, hread⟩ := exists_mem_of_forall₂ h.flip he
    cases hread with
    | leaf _ _ hv => exact (hQN e _ hv).1 (hQ _ hp _ rfl) n hn
    | nested _ _ hes _ =>
      rw [nestedEntries?_of_valueNode? hn] at hes
      cases hes
  · intro hN q hq v hv
    obtain ⟨e, he, hread⟩ := exists_mem_of_forall₂ h hq
    cases hread with
    | leaf _ _ hgives =>
      cases hv
      exact (hQN e v hgives).2 (hN e he)
    | nested => cases hv

end Style

end Appearance
