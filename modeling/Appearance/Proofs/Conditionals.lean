import Appearance.Proofs.Declarations

/-!
# Conditional values, as they are loaded

A value has the shape of the node from which it is read (`Value.Shaped`): a sequence gives an array
and a mapping a conditional value, wherever it stands, and no text gives one. So what is said of the
conditions in a value is said of the keys of the mappings in its node
(`Value.Shaped.allConditions_iff`).

A branch of a conditional value is never conditional itself. So a conditional value is the whole
value of its property (`Value.Flat`), unless a mapping is an item of a sequence
(`Value.Shaped.flat_iff`). `Load.forall_leaves_iff` carries such statements to all values of a
stylesheet.

What is said of the conditions in a value (`Value.AllConditions`) is said for any property of the
list of their texts. That they are distinct is one such property, so it needs no induction over the
shapes of its own.
-/

namespace Appearance

open Appearance.Yaml (Node)

/-! ## Values in values and nodes in nodes -/

namespace Value

/-- The values that a value holds directly. -/
def parts : Value → List Value
  | array vs => vs
  | conditional bs => bs.map Prod.snd
  | _ => []

/-- The first value is the second one, or stands in it at some depth. -/
inductive Within : Value → Value → Prop
  | self (v : Value) : Within v v
  | part {u w v : Value} : w ∈ v.parts → Within u w → Within u v

/-- A value stands within another if it is this one or stands within a part. -/
theorem within_iff {u v : Value} : u.Within v ↔ u = v ∨ ∃ w ∈ v.parts, u.Within w := by
  constructor
  · rintro (_ | ⟨hw, hu⟩)
    · exact .inl rfl
    · exact .inr ⟨_, hw, hu⟩
  · rintro (rfl | ⟨w, hw, hu⟩)
    · exact .self u
    · exact .part hw hu

/-- What is said of the conditions of a conditional value, as they are spelled, is said of each
conditional value in the value. -/
def AllConditions (R : List String → Prop) (v : Value) : Prop :=
  ∀ bs, (conditional bs).Within v → R (bs.map (·.1.raw))

/-- What is said of each conditional value in a value is said of the value itself and of its
parts. -/
theorem forall_within_iff {Q : List (Condition × Value) → Prop} {v : Value} :
    (∀ bs, (conditional bs).Within v → Q bs) ↔ (∀ bs, v = conditional bs → Q bs) ∧
      ∀ w ∈ v.parts, ∀ bs, (conditional bs).Within w → Q bs := by
  constructor
  · intro h
    exact ⟨fun bs hv => h bs (hv ▸ .self _), fun w hw bs hbs => h bs (.part hw hbs)⟩
  · rintro ⟨hself, hparts⟩ bs hbs
    rcases within_iff.1 hbs with hv | ⟨w, hw, hbs⟩
    · exact hself bs hv.symm
    · exact hparts w hw bs hbs

/-- No conditional value stands in the value, unless it is the value itself. -/
def Flat (v : Value) : Prop := ∀ w ∈ v.parts, ∀ bs, ¬ (conditional bs).Within w

/-- No conditional value is a branch of another one. -/
def BranchesPlain (v : Value) : Prop :=
  ∀ bs, (conditional bs).Within v → ∀ b ∈ bs, b.2.isConditional = false

end Value

namespace Yaml.Node

/-- The nodes that a sequence or a mapping holds directly; keys do not count. -/
def parts : Node → List Node
  | sequence items => items
  | mapping entries => entries.map Prod.snd
  | _ => []

/-- The first node is the second one, or stands in it at some depth. -/
inductive Within : Node → Node → Prop
  | self (n : Node) : Within n n
  | part {l m n : Node} : m ∈ n.parts → Within l m → Within l n

theorem within_iff {l n : Node} : l.Within n ↔ l = n ∨ ∃ m ∈ n.parts, l.Within m := by
  constructor
  · rintro (_ | ⟨hm, hl⟩)
    · exact .inl rfl
    · exact .inr ⟨_, hm, hl⟩
  · rintro (rfl | ⟨m, hm, hl⟩)
    · exact .self l
    · exact .part hm hl

/-- A part of a node is less high than the node. -/
theorem height_lt_of_mem_parts {m n : Node} (h : m ∈ n.parts) : m.height < n.height := by
  cases n with
  | sequence items =>
    have hle : m.height ≤ heightOfItems items := height_le_of_mem_items h
    have heq : (sequence items).height = heightOfItems items + 1 := by rw [height]
    omega
  | mapping entries =>
    obtain ⟨e, he, rfl⟩ := List.mem_map.1 h
    have hle := height_le_of_mem_entries he
    have heq : (mapping entries).height = heightOfEntries entries + 1 := by rw [height]
    omega
  | _ => cases h

/-- What holds of a node as soon as it holds of the nodes in it holds of every node. -/
@[elab_as_elim]
theorem induction {motive : Node → Prop} (step : ∀ n, (∀ m ∈ n.parts, motive m) → motive n)
    (n : Node) : motive n := by
  induction hn : n.height using Nat.strong_induction_on generalizing n with
  | h k ih => exact step n fun m hm => ih m.height (hn ▸ height_lt_of_mem_parts hm) m rfl

/-- What is said of each node of one form in a node is said of the node itself and of its parts. -/
theorem forall_within_iff {α : Type} (f : α → Node) {Q : α → Prop} {n : Node} :
    (∀ a, (f a).Within n → Q a) ↔ (∀ a, n = f a → Q a) ∧
      ∀ m ∈ n.parts, ∀ a, (f a).Within m → Q a := by
  constructor
  · intro h
    exact ⟨fun a hn => h a (hn ▸ .self _), fun m hm a ha => h a (.part hm ha)⟩
  · rintro ⟨hself, hparts⟩ a ha
    rcases within_iff.1 ha with hn | ⟨m, hm, ha⟩
    · exact hself a hn.symm
    · exact hparts m hm a ha

/-- No sequence in the node has a mapping among its items. -/
def NoMappingItems (n : Node) : Prop :=
  ∀ items, (sequence items).Within n → ∀ entries, mapping entries ∉ items

/-- The spelling of the condition that the key of an entry gives. -/
def conditionText (e : Node × Node) : String :=
  String.ofList (Condition.normalize (e.1.scalarText?.getD "").toList)

/-- What is said of the conditions that the keys of a mapping give is said of each mapping in the
node. -/
def AllConditions (R : List String → Prop) (n : Node) : Prop :=
  ∀ entries, (mapping entries).Within n → R (entries.map conditionText)

end Yaml.Node

/-! ## Texts -/

namespace Value

/-- The value holds no other value. -/
def isAtom : Value → Bool
  | conditional _ => false
  | array _ => false
  | _ => true

/-- If the result is a value, then one that holds no other. -/
def Atomic (x : Except ValueError Value) : Prop := ∀ v, x = .ok v → v.isAtom = true

theorem atomic_ok {v : Value} (h : v.isAtom = true) : Atomic (.ok v) := fun u hu => by
  cases hu
  exact h

theorem atomic_error (e : ValueError) : Atomic (.error e) := fun v h => by cases h

theorem Atomic.bind {α : Type} {x : Except ValueError α} {f : α → Except ValueError Value}
    (h : ∀ a, Atomic (f a)) : Atomic (x >>= f) := fun v hv =>
  have ⟨a, _, ha⟩ := bind_eq_ok.1 hv
  h a v ha

/-- A word is read as a value without parts. -/
theorem atomic_ofWord (word : String) : Atomic (ofWord word) := by
  unfold ofWord
  split
  · exact atomic_ok rfl
  · split
    · exact atomic_ok rfl
    · split
      · refine atomic_ok ?_
        unfold ofNumber
        split
        · rfl
        · split <;> rfl
      · exact atomic_error _

theorem atomic_ofHex (digits : List Char) : Atomic (ofHex digits) := by
  unfold ofHex
  split
  · exact atomic_ok rfl
  · exact atomic_error _

theorem atomic_fontOfNames (source : String) (typography names : List String) :
    Atomic (fontOfNames source typography names) := by
  unfold fontOfNames
  split
  · exact atomic_ok rfl
  · exact atomic_error _

/-- A call is read as a value without parts, whatever it calls. -/
theorem atomic_ofCall (source : String) (ctx : ValueContext) (keyword : Keyword) (c : Bool)
    (arguments : List Argument) : Atomic (ofCall source ctx keyword c arguments) := by
  cases keyword with
  | font => exact .bind fun names => atomic_fontOfNames source ctx.typography names
  | color =>
    change Atomic (colorOfCall source arguments)
    unfold colorOfCall
    split
    · exact atomic_error _
    · split <;> first | exact atomic_ofHex _ | exact atomic_error _
  | redirect =>
    change Atomic (redirectOfCall source arguments)
    unfold redirectOfCall
    split
    · exact atomic_error _
    · split
      · exact atomic_ok rfl
      · exact .bind fun _ => atomic_ok rfl
  | namedColor | image | icon | animationValue | keyFrame => exact .bind fun _ => atomic_ok rfl
  | point | size | rect | edgeInsets | repeatCount | timingFunction =>
    refine .bind fun _ => ?_
    split
    · exact atomic_ok rfl
    · exact atomic_error _
  | enumDef | optionDef =>
    refine .bind fun _ => .bind fun _ => ?_
    split
    · exact atomic_error _
    · exact atomic_ok rfl
  | enumCase => exact .bind fun _ => .bind fun _ => atomic_ok rfl
  | optionSet =>
    change Atomic (optionSetOfCall source arguments)
    unfold optionSetOfCall
    split
    · exact atomic_error _
    · exact .bind fun _ => atomic_ok rfl
  | call =>
    change Atomic (expressionOfCall source arguments)
    unfold expressionOfCall
    split
    · exact .bind fun _ => atomic_ok rfl
    · exact atomic_error _

theorem parts_of_isAtom {v : Value} (h : v.isAtom = true) : v.parts = [] := by
  cases v <;> first | rfl | cases h

theorem not_within_of_isAtom {v : Value} (hv : v.isAtom = true) (bs : List (Condition × Value)) :
    ¬ (conditional bs).Within v := fun h => by
  rcases within_iff.1 h with rfl | ⟨w, hw, -⟩
  · cases hv
  · rw [parts_of_isAtom hv] at hw
    cases hw

mutual

/-- No text gives a conditional value. -/
theorem not_within_ofExpr {source : String} {ctx : ValueContext} {v : Value} :
    ∀ {e : Expr}, ofExpr source ctx e = .ok v → ∀ bs, ¬ (conditional bs).Within v
  | .word word, h => not_within_of_isAtom (atomic_ofWord word v (by rwa [ofExpr] at h))
  | .quoted _, h => by
    rw [ofExpr] at h
    cases h
  | .color digits, h => not_within_of_isAtom (atomic_ofHex digits.toList v (by rwa [ofExpr] at h))
  | .redirect _, h => by
    rw [ofExpr] at h
    cases h
    exact not_within_of_isAtom rfl
  | .list items, h => by
    rw [ofExpr] at h
    split at h
    · next values hvalues =>
      cases h
      intro bs hbs
      rcases within_iff.1 hbs with hbs | ⟨w, hw, hbs⟩
      · cases hbs
      · exact not_within_ofItems hvalues w hw bs hbs
    · cases h
  | .call name arguments, h => by
    rw [ofExpr] at h
    split at h
    · exact not_within_of_isAtom (atomic_ofCall _ _ _ _ _ v h)
    · cases h

/-- No text of an item gives a conditional value. -/
theorem not_within_ofItems {source : String} {ctx : ValueContext} {vs : List Value} :
    ∀ {es : List Expr}, ofItems source ctx es = .ok vs →
      ∀ v ∈ vs, ∀ bs, ¬ (conditional bs).Within v
  | [], h => by
    rw [ofItems] at h
    cases h
    simp
  | e :: es, h => by
    rw [ofItems] at h
    split at h
    · cases h
    · next v hv =>
      split at h
      · next vs hvs =>
        cases h
        exact List.forall_mem_cons.2 ⟨not_within_ofExpr hv, not_within_ofItems hvs⟩
      · cases h

end

theorem not_within_parse {ctx : ValueContext} {text : String} {v : Value}
    (h : parse ctx text = .ok v) : ∀ bs, ¬ (conditional bs).Within v := by
  unfold parse at h
  split at h
  · exact not_within_ofExpr h
  · cases h

/-! ## Shapes -/

/-- The value has the shape of the node: sequences are arrays and mappings are conditional values,
and neither stands in anything else. -/
inductive Shaped : Node → Value → Prop
  | scalar {n : Node} {v : Value} : n.parts = [] → (∀ entries, n ≠ .mapping entries) →
    (∀ bs, ¬ (conditional bs).Within v) → Shaped n v
  | array {items : List Node} {vs : List Value} : List.Forall₂ Shaped items vs →
    Shaped (.sequence items) (array vs)
  | conditional {entries : List (Node × Node)} {bs : List (Condition × Value)} :
    bs.map (·.1.raw) = entries.map Node.conditionText →
    (∀ e ∈ entries, ∀ inner, e.2 ≠ .mapping inner) →
    List.Forall₂ Shaped (entries.map Prod.snd) (bs.map Prod.snd) →
    Shaped (.mapping entries) (ofBranches bs)

/-- A condition keeps its normalized text. -/
theorem raw_of_parse {text : String} {c : Condition} (h : Condition.parse text = .ok c) :
    c.raw = String.ofList (Condition.normalize text.toList) := by
  unfold Condition.parse Condition.parseChars at h
  dsimp only at h
  split at h
  · cases h
    rfl
  · cases h

/-- The text of a condition is that of a scalar key. -/
theorem conditionOfKey_eq_ok {key : Node} {text : String} (h : conditionOfKey key = .ok text) :
    key.scalarText? = some text := by
  unfold conditionOfKey at h
  split at h
  · next htext =>
    cases h
    exact htext
  · cases h

mutual

/-- A value has the shape of the node from which it is read. -/
theorem shaped_ofNode {ctx : ValueContext} :
    ∀ {n : Node} {v : Value}, ofNode ctx n = .ok v → Shaped n v
  | .bool _, _, h => by
    rw [ofNode] at h
    cases h
    exact .scalar rfl (by simp) (not_within_of_isAtom rfl)
  | .number n, _, h => by
    rw [ofNode] at h
    cases h
    refine .scalar rfl (by simp) (not_within_of_isAtom ?_)
    unfold ofYamlNumber
    split <;> rfl
  | .string _, _, h => by
    rw [ofNode] at h
    exact .scalar rfl (by simp) (not_within_parse h)
  | .sequence _, _, h => by
    rw [ofNode] at h
    split at h
    · next hvs =>
      cases h
      exact .array (shaped_ofNodes hvs)
    · cases h
  | .mapping _, _, h => by
    rw [ofNode] at h
    split at h
    · next hbs =>
      cases h
      obtain ⟨hraw, hflat, hshaped⟩ := shaped_ofEntries hbs
      exact .conditional hraw hflat hshaped
    · cases h
  | .null, _, h | .tagged _ _, _, h => by
    rw [ofNode] at h
    cases h

/-- The items of a sequence have the shapes of their nodes. -/
theorem shaped_ofNodes {ctx : ValueContext} :
    ∀ {ns : List Node} {vs : List Value}, ofNodes ctx ns = .ok vs → List.Forall₂ Shaped ns vs
  | [], _, h => by
    rw [ofNodes] at h
    cases h
    exact .nil
  | n :: ns, _, h => by
    rw [ofNodes] at h
    split at h
    · cases h
    · next hv =>
      split at h
      · next hvs =>
        cases h
        exact .cons (shaped_ofNode hv) (shaped_ofNodes hvs)
      · cases h

/-- The branches of a mapping have the texts of its keys and the shapes of its values. -/
theorem shaped_ofEntries {ctx : ValueContext} :
    ∀ {es : List (Node × Node)} {bs : List (Condition × Value)}, ofEntries ctx es = .ok bs →
      bs.map (·.1.raw) = es.map Node.conditionText ∧
      (∀ e ∈ es, ∀ inner, e.2 ≠ .mapping inner) ∧
      List.Forall₂ Shaped (es.map Prod.snd) (bs.map Prod.snd)
  | [], _, h => by
    rw [ofEntries] at h
    cases h
    exact ⟨rfl, by simp, .nil⟩
  | (key, node) :: es, _, h => by
    rw [ofEntries] at h
    split at h
    · cases h
    · next text htext =>
      split at h
      · cases h
      · next hnode =>
        split at h
        · cases h
        · next c hc =>
          split at h
          · cases h
          · next v hv =>
            split at h
            · next bs hbs =>
              cases h
              obtain ⟨hraw, hflat, hshaped⟩ := shaped_ofEntries hbs
              refine ⟨?_, List.forall_mem_cons.2 ⟨?_, hflat⟩, .cons (shaped_ofNode hv) hshaped⟩
              · rw [List.map_cons, List.map_cons, hraw, raw_of_parse hc, Node.conditionText,
                  conditionOfKey_eq_ok htext, Option.getD_some]
              · rintro inner rfl
                exact hnode rfl
            · cases h

end

/-- A value is conditional if and only if its node is a mapping. -/
theorem Shaped.isConditional_eq_false_iff {n : Node} {v : Value} (h : Shaped n v) :
    v.isConditional = false ↔ ∀ entries, n ≠ .mapping entries := by
  cases h with
  | scalar _ hn hnone =>
    refine iff_of_true ?_ hn
    cases v with
    | conditional bs => exact absurd (.self _) (hnone bs)
    | _ => rfl
  | array _ => exact iff_of_true rfl (by simp)
  | conditional _ _ _ => exact iff_of_false (by simp [ofBranches, isConditional]) (by simp)

/-- What is said of the values that nodes give as of the nodes, is said of all of them. -/
theorem forall_mem_iff {P : Value → Prop} {N : Node → Prop} {ns : List Node} {vs ws : List Value}
    (h : List.Forall₂ Shaped ns vs) (hperm : vs.Perm ws)
    (hPN : ∀ n ∈ ns, ∀ v, Shaped n v → (P v ↔ N n)) : (∀ w ∈ ws, P w) ↔ ∀ n ∈ ns, N n := by
  constructor
  · intro hP n hn
    obtain ⟨v, hv, hnv⟩ := exists_mem_of_forall₂ h.flip hn
    exact (hPN n hn v hnv).1 (hP v (hperm.mem_iff.1 hv))
  · intro hN w hw
    obtain ⟨n, hn, hnw⟩ := exists_mem_of_forall₂ h (hperm.mem_iff.2 hw)
    exact (hPN n hn w hnw).2 (hN n hn)

theorem perm_parts_ofBranches (bs : List (Condition × Value)) :
    (bs.map Prod.snd).Perm (ofBranches bs).parts :=
  ((List.mergeSort_perm _ _).map _).symm

/-- The conditions of the conditional values in a value are those that the mappings in its node
give, each up to order. -/
theorem Shaped.allConditions_iff {R : List String → Prop}
    (hR : ∀ {l m : List String}, l.Perm m → (R l ↔ R m)) {n : Node} {v : Value} (h : Shaped n v) :
    v.AllConditions R ↔ n.AllConditions R := by
  induction n using Node.induction generalizing v with
  | step n ih =>
    refine forall_within_iff.trans (.trans ?_ (Node.forall_within_iff Node.mapping).symm)
    cases h with
    | scalar hparts hn hnone =>
      rw [hparts]
      exact iff_of_true
        ⟨fun bs hv => absurd (hv ▸ .self _) (hnone bs),
          fun w hw bs hbs => absurd (.part hw hbs) (hnone bs)⟩
        ⟨fun entries heq => absurd heq (hn entries), by simp⟩
    | array hvs =>
      exact and_congr (by simp) (forall_mem_iff hvs (.refl _) fun m hm w hw => ih m hm hw)
    | @conditional entries bs hraw _ hbs =>
      refine and_congr ?_
        (forall_mem_iff hbs (perm_parts_ofBranches bs) fun m hm w hw => ih m hm hw)
      simp only [ofBranches, Value.conditional.injEq, Node.mapping.injEq, forall_eq']
      rw [← hraw]
      -- loading sorts the branches
      exact hR ((List.mergeSort_perm _ _).map _)

/-- No conditional value stands within another value if it is not conditional and flat. -/
theorem not_within_iff {v : Value} :
    (∀ bs, ¬ (Value.conditional bs).Within v) ↔ v.isConditional = false ∧ v.Flat := by
  refine forall_within_iff.trans (and_congr_left' ?_)
  cases v <;> simp [isConditional]

/-- The value or one that it holds directly is conditional. -/
def hasConditional (v : Value) : Bool := v.isConditional || v.parts.any isConditional

/-- A value with a conditional part is not flat. -/
theorem not_flat_of_hasConditional {v : Value} (h : v.parts.any hasConditional = true) :
    ¬ v.Flat := fun hflat => by
  obtain ⟨w, hw, hcond⟩ := List.any_eq_true.1 h
  obtain ⟨hself, hparts⟩ := not_within_iff.1 (hflat w hw)
  rw [hasConditional, hself, Bool.false_or] at hcond
  obtain ⟨u, hu, hcond⟩ := List.any_eq_true.1 hcond
  rw [(not_within_iff.1 (hparts u hu)).1] at hcond
  cases hcond

/-- A value is flat if and only if no mapping is an item of a sequence in its node. -/
theorem Shaped.flat_iff {n : Node} {v : Value} (h : Shaped n v) : v.Flat ↔ n.NoMappingItems := by
  induction n using Node.induction generalizing v with
  | step n ih =>
    -- no conditional value stands in a part: the part is none, and is flat itself
    have hpart : ∀ m ∈ n.parts, ∀ w, Shaped m w →
        ((∀ bs, ¬ (Value.conditional bs).Within w) ↔
          (∀ entries, m ≠ .mapping entries) ∧ m.NoMappingItems) := fun m hm w hw => by
      rw [not_within_iff, hw.isConditional_eq_false_iff, ih m hm hw]
    refine .trans ?_ (Node.forall_within_iff Node.sequence).symm
    cases h with
    | scalar hparts _ hnone =>
      refine iff_of_true (fun w hw bs hbs => hnone bs (.part hw hbs)) ⟨?_, by simp [hparts]⟩
      rintro items rfl entries hmem
      change items = [] at hparts
      rw [hparts] at hmem
      cases hmem
    | @array items vs hvs =>
      refine (forall_mem_iff hvs (.refl _) hpart).trans ?_
      simp only [forall_and, Node.sequence.injEq, forall_eq']
      refine and_congr_left' ⟨fun hne entries hmem => hne _ hmem entries rfl, ?_⟩
      rintro hmem m hm entries rfl
      exact hmem entries hm
    | @conditional entries bs _ hplain hbs =>
      refine (forall_mem_iff hbs (perm_parts_ofBranches bs) hpart).trans ?_
      simp only [forall_and]
      refine and_congr_left' (iff_of_true (fun m hm => ?_) fun items hitems => by cases hitems)
      obtain ⟨e, he, rfl⟩ := List.mem_map.1 hm
      exact hplain e he

/-- No branch of a conditional value is conditional itself. -/
theorem Shaped.branchesPlain {n : Node} {v : Value} (h : Shaped n v) : v.BranchesPlain := by
  induction n using Node.induction generalizing v with
  | step n ih =>
    cases h with
    | scalar _ _ hnone => exact fun bs hbs => absurd hbs (hnone bs)
    | array hvs =>
      refine forall_within_iff.2 ⟨by simp, fun w hw => ?_⟩
      obtain ⟨m, hm, hmw⟩ := exists_mem_of_forall₂ hvs hw
      exact ih m hm hmw
    | @conditional entries bs _ hplain hbs =>
      have hpart : ∀ w ∈ (ofBranches bs).parts, ∃ m ∈ entries.map Prod.snd, Shaped m w :=
        fun w hw => exists_mem_of_forall₂ hbs ((perm_parts_ofBranches bs).mem_iff.2 hw)
      refine forall_within_iff.2 ⟨fun as has b hb => ?_, fun w hw => ?_⟩
      · have hw : b.2 ∈ (ofBranches bs).parts := by
          rw [has]
          exact List.mem_map_of_mem hb
        obtain ⟨m, hm, hmw⟩ := hpart _ hw
        obtain ⟨e, he, rfl⟩ := List.mem_map.1 hm
        exact hmw.isConditional_eq_false_iff.2 (hplain e he)
      · obtain ⟨m, hm, hmw⟩ := hpart w hw
        exact ih m hm hmw

end Value

/-! ## Stylesheets -/

namespace Style

/-- A value has the shape of the node of its entry, or no conditional value stands in it. -/
theorem Gives.shaped {ctx : SheetContext} {e : Node × Node} {v : Value} (h : Gives ctx e v) :
    (valueNode? e = none ∧ ∀ bs, ¬ (Value.conditional bs).Within v) ∨
      ∃ n, valueNode? e = some n ∧ Value.Shaped n v := by
  cases h with
  | frames hkey he _ =>
    refine .inl ⟨by simp [valueNode?, he, hkey], Value.forall_within_iff.2 ⟨by simp, ?_⟩⟩
    intro w hw
    obtain ⟨frame, -, rfl⟩ := List.mem_map.1 hw
    exact Value.not_within_of_isAtom rfl
  | @repeatCount node c hnode hc =>
    refine .inr ⟨node, hnode, ?_⟩
    unfold Value.repeatCountOfNode at hc
    split at hc
    · cases hc
    · next text htext =>
      cases node <;>
        first
        | exact .scalar rfl (by simp) (Value.not_within_of_isAtom rfl)
        | cases htext
  | @value _ node _ hnode hv => exact .inr ⟨node, hnode, Value.shaped_ofNode hv⟩

/-- What is said of values of a shape is said of the nodes that give them. -/
theorem Gives.iff_of_shaped {Q : Value → Prop} {N : Node → Prop}
    (hnone : ∀ v, (∀ bs, ¬ (Value.conditional bs).Within v) → Q v)
    (hshaped : ∀ n v, Value.Shaped n v → (Q v ↔ N n)) {ctx : SheetContext} (e : Node × Node)
    (v : Value) (h : Gives ctx e v) : Q v ↔ ∀ n ∈ valueNode? e, N n := by
  rcases h.shaped with ⟨hnode, hv⟩ | ⟨n, hnode, hv⟩
  · rw [hnode]
    exact iff_of_true (hnone v hv) (by simp)
  · rw [hnode]
    simpa using hshaped n v hv

theorem isAtom_of_mem_leaves_ofSymbolFont {ctx : SheetContext} {font : SymbolFont} {isBase : Bool}
    {s : Style} (h : ofSymbolFont ctx font isBase = .ok s) : ∀ v ∈ s.leaves, v.isAtom = true := by
  obtain ⟨light, regular, rfl⟩ := ofSymbolFont_eq_ok h
  cases isBase <;> simp [leaves, leavesOfEach, Property.ofValue, Value.isAtom]

end Style

/-- If a style has only nested styles, its values are theirs. -/
theorem Style.mem_leaves_iff_nested {s : Style} (h : ∀ p ∈ s.properties, p.value? = none)
    {v : Value} : v ∈ s.leaves ↔ ∃ n ∈ s.nestedStyles, v ∈ n.leaves := by
  obtain ⟨head, ps⟩ := s
  rw [leaves, mem_leavesOfEach]
  simp only [mem_nestedStyles]
  constructor
  · rintro (⟨k, hk⟩ | ⟨k, n, hn, hv⟩)
    · cases h _ hk
    · exact ⟨n, ⟨k, hn⟩, hv⟩
  · rintro ⟨n, ⟨k, hn⟩, hv⟩
    exact .inr ⟨k, n, hn, hv⟩

/-- The values of a stylesheet are those of its styles and its animations, if its animator has only
animations. -/
theorem Stylesheet.mem_leaves_iff_animations {t : Stylesheet}
    (h : ∀ a ∈ t.animator, ∀ p ∈ a.properties, p.value? = none) {v : Value} :
    v ∈ t.leaves ↔ ∃ x ∈ t.styles ++ t.animations, v ∈ x.leaves := by
  rw [mem_leaves, allStyles]
  simp only [List.mem_append, or_and_right, exists_or]
  refine or_congr_right ?_
  rw [animations]
  cases ht : t.animator with
  | none => simp
  | some a => simpa using Style.mem_leaves_iff_nested (h a ht)

namespace Load

/-- The node is read as a value of a declared style, of an animation, or of a style nested in
them. -/
def IsValueNode (ds : List Declaration) (last : Option (String × Node)) (n : Node) : Prop :=
  ∃ body ∈ bodiesOf ds last, ∃ m, Style.Nests body m ∧ ∃ e ∈ m, Style.valueNode? e = some n

variable {read : Reader} {depth : Nat} {options : LoadOptions} {declaration dir text : String}
  {t : Stylesheet}

/-- What is said of values as of the nodes whose shape they have is said of all values of a
stylesheet as of the nodes that are read. -/
theorem forall_leaves_iff [Yaml.Parser] {Q : Value → Prop} {N : Node → Prop}
    (hnone : ∀ v, (∀ bs, ¬ (Value.conditional bs).Within v) → Q v)
    (hshaped : ∀ n v, Value.Shaped n v → (Q v ↔ N n))
    (h : sourceIn read depth options declaration dir text = .ok t) :
    (∀ v ∈ t.leaves, Q v) ↔
      ∀ n, IsValueNode (declarationsIn read depth dir text) (animatorOf (itemsOf text)) n →
        N n := by
  obtain ⟨own, font, hstyles, hfont, hbodied⟩ := (loaded_of_sourceIn h).exists_bodied
  have hfontLeaves : ∀ x ∈ font, ∀ v ∈ x.leaves, Q v := fun x hx v hv => by
    obtain ⟨f, -, hf⟩ := exists_mem_of_forall₂ hfont hx
    exact hnone v (Value.not_within_of_isAtom (Style.isAtom_of_mem_leaves_ofSymbolFont hf v hv))
  have hsheet : (∀ v ∈ t.leaves, Q v) ↔ ∀ x ∈ own ++ t.animations, ∀ v ∈ x.leaves, Q v := by
    simp only [Stylesheet.mem_leaves_iff_animations hbodied.values, hstyles, List.mem_append]
    constructor
    · rintro hQ x (hx | hx) v hv
      · exact hQ v ⟨x, .inl (.inl hx), hv⟩
      · exact hQ v ⟨x, .inr hx, hv⟩
    · rintro hQ v ⟨x, (hx | hx) | hx, hv⟩
      · exact hQ x (.inl hx) v hv
      · exact hfontLeaves x hx v hv
      · exact hQ x (.inr hx) v hv
  have hbodies := hbodied.all_iff fun u m hu =>
    Style.forall_values_iff (Style.Gives.iff_of_shaped hnone hshaped) hu
  simp only [hsheet, Style.forall_leaves_iff_all, hbodies, IsValueNode]
  constructor
  · rintro hN n ⟨body, hbody, m, hm, e, he, hn⟩
    exact hN body hbody m hm e he n hn
  · exact fun hN body hbody m hm e he n hn => hN n ⟨body, hbody, m, hm, e, he, hn⟩

/-- A conditional value is the whole value of its property in all of a stylesheet that is loaded, if
and only if no mapping is an item of a sequence in a node that is read as a value. A branch of a
conditional value is never conditional itself. -/
theorem flat_leaves_iff [Yaml.Parser]
    (h : sourceIn read depth options declaration dir text = .ok t) :
    ((∀ v ∈ t.leaves, v.Flat) ↔
      ∀ n, IsValueNode (declarationsIn read depth dir text) (animatorOf (itemsOf text)) n →
        n.NoMappingItems) ∧
    ∀ v ∈ t.leaves, v.BranchesPlain := by
  refine ⟨forall_leaves_iff (fun v hv => (Value.not_within_iff.1 hv).2)
    (fun n v hv => hv.flat_iff) h, ?_⟩
  have hplain := forall_leaves_iff (Q := Value.BranchesPlain) (N := fun _ => True)
    (fun v hv bs hbs => absurd hbs (hv bs)) (fun n v hv => iff_of_true hv.branchesPlain trivial) h
  exact hplain.2 fun _ _ => trivial

/-- A conditional value with an array in a branch. -/
def wideSource : String := "Label:\n  size:\n    width > 3: [1, 2]\n    default: 0\n"

/-- A source with an array in a branch of a condition has flat values only. -/
theorem flat_leaves_wideSource :
    ∃ t, source (fun _ => none) 0 ⟨[], none⟩ "Theme" wideSource = .ok t ∧
      (∃ v ∈ t.leaves, v.isConditional = true) ∧
      ((∀ v ∈ t.leaves, v.Flat) ↔
        ∀ n, IsValueNode (declarationsIn (fun _ => none) 0 "" wideSource)
          (animatorOf (itemsOf wideSource)) n → n.NoMappingItems) ∧
      ∀ v ∈ t.leaves, v.BranchesPlain := by
  have hrun : (source (fun _ => none) 0 ⟨[], none⟩ "Theme" wideSource).toOption.any
      (fun t => t.leaves.any Value.isConditional) = true := by
    decide +kernel
  obtain ⟨t, ht, hleaves⟩ := exists_ok_of_any hrun
  exact ⟨t, ht, List.any_eq_true.1 hleaves, flat_leaves_iff (source_eq_sourceIn _ _ _ _ _ ▸ ht)⟩

/-- A source is loaded with a conditional value in an array, and with one in an array that is a
branch of another one. -/
theorem loads_conditional_items :
    (∃ t, source (fun _ => none) 0 ⟨[], none⟩ "Theme"
        "Label:\n  sizes: [1, {default: 2}]\n" = .ok t ∧ ∃ v ∈ t.leaves, ¬ v.Flat) ∧
    ∃ t, source (fun _ => none) 0 ⟨[], none⟩ "Theme"
        "Label:\n  sizes:\n    default: [{default: 2}]\n" = .ok t ∧ ∃ v ∈ t.leaves, ¬ v.Flat := by
  have hitem : (source (fun _ => none) 0 ⟨[], none⟩ "Theme"
      "Label:\n  sizes: [1, {default: 2}]\n").toOption.any
      (fun t => t.leaves.any fun v => v.parts.any Value.hasConditional) = true := by
    decide +kernel
  have hbranch : (source (fun _ => none) 0 ⟨[], none⟩ "Theme"
      "Label:\n  sizes:\n    default: [{default: 2}]\n").toOption.any
      (fun t => t.leaves.any fun v => v.parts.any Value.hasConditional) = true := by
    decide +kernel
  obtain ⟨t, ht, hleaf⟩ := exists_ok_of_any hitem
  obtain ⟨u, hu, hleaf'⟩ := exists_ok_of_any hbranch
  obtain ⟨v, hv, hpart⟩ := List.any_eq_true.1 hleaf
  obtain ⟨v', hv', hpart'⟩ := List.any_eq_true.1 hleaf'
  exact ⟨⟨t, ht, v, hv, Value.not_flat_of_hasConditional hpart⟩,
    u, hu, v', hv', Value.not_flat_of_hasConditional hpart'⟩

end Load

end Appearance
