import Appearance.Proofs.Conditionals
import Appearance.Proofs.Cuts
import Appearance.Proofs.Compact

/-!
# Values under a condition that always holds

A scalar is the value of a property, or it is written below the key `default` and is then the one
branch of a conditional value. Loading reads it in the same way in both places, except for the key
of repeat counts: there a scalar is a count first and a value after that, and a branch is a value
only (`Value.repeatCountOfNode_eq_ofNode_iff`).

No text is both a count and a call that gives one, as a call has parentheses
(`Value.parse_ne_repeatCount`). So `Style.underDefault_iff` can say exactly when the two notations
of a property agree, and `Style.repeatCount_underDefault` is a property for which they do not.
-/

namespace Appearance

open Appearance.Text
open Appearance.Yaml (Node)

/-! ## Counts are not calls -/

namespace Token

/-- A parenthesis that is scanned stands in the text. -/
theorem mem_of_openParen_mem_scan {cs : List Char} {t : Token} (ht : t ∈ scan cs)
    (hkind : t.kind = .openParen) : '(' ∈ cs := by
  obtain ⟨part, ⟨before, after, rfl, -, -⟩, hlexeme⟩ := exists_lexeme_of_mem_scan ht
  rw [hkind] at hlexeme
  cases hlexeme with
  | @punctuation c _ hc =>
    have : c = '(' := by
      unfold punctuation? at hc
      split at hc <;> cases hc
      rfl
    subst this
    simp

end Token

/-- The text of a call has a parenthesis. -/
theorem Expr.mem_of_parse_call {text name : String} {arguments : List Argument}
    (h : parse text = .ok (.call name arguments)) : '(' ∈ text.toList := by
  obtain ⟨p, htokens, hexpr⟩ := parseChars_eq_ok_iff.1 h
  have hopening : ∃ t ∈ p.tokens, t.kind = .openParen := by
    cases p with
    | emptyCall _ _ opening => exact ⟨opening.token .openParen, by simp [Phrase.tokens], rfl⟩
    | call _ _ opening => exact ⟨opening.token .openParen, by simp [Phrase.tokens], rfl⟩
    | _ => cases hexpr
  obtain ⟨t, ht, hkind⟩ := hopening
  exact Token.mem_of_openParen_mem_scan (htokens ▸ ht) hkind

namespace RepeatCount

/-- A count has no parenthesis. -/
theorem not_mem_of_count? {cs : List Char} {n : Nat} (h : count? cs = some n) : '(' ∉ cs := by
  have hdigits : ∀ {ds : List Char},
      (if ds.isEmpty || !ds.all Char.isDigit || decide (bound ≤ digitsValue ds) then none
        else some (digitsValue ds)) = some n → '(' ∉ ds := by
    intro ds hds hmem
    split at hds
    · cases hds
    · next hall =>
      simp only [Bool.or_eq_true, Bool.not_eq_true', not_or, Bool.not_eq_false] at hall
      exact absurd (List.all_eq_true.1 hall.1.2 _ hmem) (by decide)
  unfold count? at h
  dsimp only at h
  split at h
  · next ds =>
    simpa using hdigits h
  · exact hdigits h

/-- No text with a parenthesis is read as a count. -/
theorem not_mem_of_parse {text : String} {c : RepeatCount} (h : parse text = .ok c) :
    '(' ∉ text.toList := by
  obtain ⟨b, b', hb, hb', htext⟩ := exists_trimChars text.toList
  have htrim : '(' ∉ trimChars text.toList := by
    unfold parse at h
    dsimp only at h
    have hchars : (trim text).toList = trimChars text.toList := String.toList_ofList
    split at h
    · next hword =>
      rw [← hchars, hword]
      decide
    · split at h
      · next n hn =>
        rw [← hchars]
        exact not_mem_of_count? hn
      · cases h
  have hblank : ∀ {cs : List Char}, Blank cs → '(' ∉ cs := fun hcs hmem =>
    absurd (hcs _ hmem) (by decide)
  rw [htext]
  simp only [List.mem_append, not_or]
  exact ⟨hblank hb, htrim, hblank hb'⟩

end RepeatCount

namespace Value

/-- No word is read as a value that is a count. -/
theorem ofWord_ne_repeatCount (word : String) (c : RepeatCount) :
    ofWord word ≠ .ok (.repeatCount c) := by
  intro h
  unfold ofWord at h
  split at h
  · cases h
  · split at h
    · cases h
    · split at h
      · unfold ofNumber at h
        split at h
        · cases h
        · split at h <;> cases h
      · cases h

/-- Only a call gives a repeat count. -/
theorem exists_call_of_ofExpr {source : String} {ctx : ValueContext} {e : Expr} {c : RepeatCount}
    (h : ofExpr source ctx e = .ok (.repeatCount c)) :
    ∃ name arguments, e = .call name arguments := by
  cases e with
  | call name arguments => exact ⟨name, arguments, rfl⟩
  | word word =>
    rw [ofExpr] at h
    exact absurd h (ofWord_ne_repeatCount word c)
  | quoted => rw [ofExpr] at h; cases h
  | color digits =>
    rw [ofExpr, ofHex] at h
    split at h <;> cases h
  | redirect => rw [ofExpr] at h; cases h
  | list =>
    rw [ofExpr] at h
    split at h <;> cases h

/-- A text that is a count gives no repeat count when it is read as a value. -/
theorem parse_ne_repeatCount {ctx : ValueContext} {text : String} {c : RepeatCount}
    (h : RepeatCount.parse text = .ok c) (d : RepeatCount) :
    parse ctx text ≠ .ok (.repeatCount d) := by
  intro hparse
  unfold parse at hparse
  split at hparse
  · next e he =>
    obtain ⟨name, arguments, rfl⟩ := exists_call_of_ofExpr hparse
    exact RepeatCount.not_mem_of_parse h (Expr.mem_of_parse_call he)
  · cases hparse

end Value

/-! ## Scalars and lone branches -/

namespace Yaml.Node

/-- A node that is neither a sequence nor a mapping, whatever its tags. -/
def isScalar (n : Node) : Bool :=
  match n.untagged with
  | sequence _ => false
  | mapping _ => false
  | _ => true

/-- The mapping that has the node below the key `default` and nothing else. -/
def underDefault (n : Node) : Node := mapping [(string "default", n)]

/-- A scalar is no mapping. -/
theorem isMapping_eq_false_of_isScalar {n : Node} (h : n.isScalar = true) :
    n.isMapping = false := by
  unfold isScalar at h
  unfold isMapping entries?
  split at h
  · cases h
  · cases h
  · next hmapping =>
    split
    · next entries hn => exact absurd hn (hmapping entries)
    · rfl

end Yaml.Node

/-- The condition that the key `default` writes. -/
def Condition.fallback : Condition := ⟨"default", [.always "default"]⟩

theorem Condition.parse_default : Condition.parse "default" = .ok fallback := by cbv

/-- The conditional value with the value as its one branch. -/
def Value.underDefault (x : Value) : Value := .conditional [(Condition.fallback, x)]

/-- The property with its value as the one branch of a conditional value. -/
def Property.underDefault : Property → Property
  | .leaf head x => .leaf head x.underDefault
  | .nested head style => .nested head style

theorem Property.underDefault_ofValue (key : String) (x : Value) :
    (ofValue key x).underDefault = ofValue key x.underDefault := rfl

namespace Value

/-- A branch is read as a value, and it is the only one. -/
theorem ofNode_underDefault (ctx : ValueContext) {n : Node} (h : n.isScalar = true) :
    ofNode ctx n.underDefault = (ofNode ctx n).map underDefault := by
  have hkey : conditionOfKey (.string "default") = .ok "default" := rfl
  rw [Node.underDefault, ofNode, ofEntries, hkey]
  simp only [Node.isMapping_eq_false_of_isScalar h, Bool.false_eq_true, if_false,
    Condition.parse_default]
  cases ofNode ctx n with
  | ok x =>
    simp only [ofEntries, ofBranches, List.mergeSort_singleton]
    rfl
  | error e => rfl

/-- A scalar without a text is no value. -/
theorem ofNode_eq_unsupported {ctx : ValueContext} {n : Node} (h : n.isScalar = true)
    (htext : n.scalarText? = none) : ofNode ctx n = unsupported n := by
  cases n with
  | null => rw [ofNode]
  | tagged => rw [ofNode]
  | sequence => cases h
  | mapping => cases h
  | _ => cases htext

/-- A scalar whose text is a count is another value than a count. -/
theorem ofNode_ne_repeatCount (ctx : ValueContext) {n : Node} {text : String} {c : RepeatCount}
    (htext : n.scalarText? = some text) (h : RepeatCount.parse text = .ok c) (d : RepeatCount) :
    ofNode ctx n ≠ .ok (.repeatCount d) := by
  intro hvalue
  cases n with
  | string s =>
    cases htext
    rw [ofNode] at hvalue
    exact parse_ne_repeatCount h d hvalue
  | number m =>
    rw [ofNode, ofYamlNumber] at hvalue
    split at hvalue <;> cases hvalue
  | bool b =>
    rw [ofNode] at hvalue
    cases hvalue
  | _ => cases htext

/-- A scalar is the same value as a repeat count and as any other value if its text is no count and
it has no value but repeat counts. -/
theorem repeatCountOfNode_eq_ofNode_iff (ctx : ValueContext) {n : Node} (h : n.isScalar = true) :
    (repeatCountOfNode ctx n).map repeatCount = ofNode ctx n ↔
      ∀ text, n.scalarText? = some text →
        (∀ c, RepeatCount.parse text ≠ .ok c) ∧
          ∀ x, ofNode ctx n = .ok x → ∃ c, x = .repeatCount c := by
  cases htext : n.scalarText? with
  | none =>
    have hnode : ofNode ctx n = _ := ofNode_eq_unsupported h htext
    simp [repeatCountOfNode, htext, hnode, unsupported, Except.map]
  | some text =>
    cases hcount : RepeatCount.parse text with
    | ok c =>
      have hne := ofNode_ne_repeatCount ctx htext hcount c
      simp [repeatCountOfNode, htext, hcount, Except.map, hne.symm]
    | error fault =>
      cases hvalue : ofNode ctx n with
      | error e => simp [repeatCountOfNode, htext, hcount, hvalue, Except.map]
      | ok x =>
        cases x <;> simp [repeatCountOfNode, htext, hcount, hvalue, Except.map, fail]

/-- The value of a scalar below a key; the key of repeat counts has a reader of its own. -/
def ofScalar (ctx : SheetContext) (key : String) (n : Node) : Except ValueError Value :=
  if key = Style.repeatCountKey then (repeatCountOfNode (ctx.values key) n).map repeatCount
  else ofNode (ctx.values key) n

/-- A scalar is read as a branch as it is read alone, unless it is a count under its key. -/
theorem ofNode_eq_ofScalar_iff (ctx : SheetContext) (key : String) {n : Node}
    (h : n.isScalar = true) :
    ofNode (ctx.values key) n = ofScalar ctx key n ↔
      (key = Style.repeatCountKey → ∀ text, n.scalarText? = some text →
        (∀ c, RepeatCount.parse text ≠ .ok c) ∧
          ∀ x, ofNode (ctx.values key) n = .ok x → ∃ c, x = .repeatCount c) := by
  unfold ofScalar
  split
  · next hkey =>
    rw [eq_comm, repeatCountOfNode_eq_ofNode_iff _ h]
    simp only [hkey, forall_const]
  · next hkey => simp only [hkey, false_implies]

end Value

/-- Readings of a leaf agree on the property only if they agree on its value. -/
theorem SheetContext.illegal_underDefault_iff (ctx : SheetContext) (key : String)
    {a b : Except ValueError Value} :
    (ctx.illegal key (a.map Value.underDefault)).map (.ofValue key) =
        ((ctx.illegal key b).map (.ofValue key)).map Property.underDefault ↔ a = b := by
  cases a <;> cases b <;>
    simp [Except.map, illegal, Value.underDefault, Property.underDefault, Property.ofValue]

namespace Style

/-- A property with a scalar has the value that is read from it. -/
theorem propertyOfNode_of_isScalar (ctx : SheetContext) (depth : Nat) (key : String) {n : Node}
    (h : n.isScalar = true) :
    propertyOfNode ctx depth key n =
      (ctx.illegal key (Value.ofScalar ctx key n)).map (.ofValue key) := by
  have hleaf : propertyOfNode ctx depth key n = leafOfNode ctx key n := by
    cases depth with
    | zero => rfl
    | succ depth =>
      cases n with
      | sequence => cases h
      | _ => rfl
  have hmapping := Node.isMapping_eq_false_of_isScalar h
  simp only [hleaf, leafOfNode, Value.ofScalar, hmapping, Bool.not_false, Bool.and_true,
    decide_eq_true_eq]

/-- A property with a scalar below `default` has the value that is read as its branch. -/
theorem propertyOfNode_underDefault (ctx : SheetContext) (depth : Nat) (key : String) {n : Node}
    (h : n.isScalar = true) :
    propertyOfNode ctx depth key n.underDefault =
      (ctx.illegal key ((Value.ofNode (ctx.values key) n).map Value.underDefault)).map
        (.ofValue key) := by
  have hleaf : propertyOfNode ctx depth key n.underDefault = leafOfNode ctx key n.underDefault := by
    cases depth <;> rfl
  have hmapping : n.underDefault.isMapping = true := rfl
  simp only [hleaf, leafOfNode, hmapping, Bool.not_true, Bool.and_false, Bool.false_eq_true,
    if_false, Value.ofNode_underDefault _ h]

/-- Below the key `default` a scalar is the one branch of the value that the property has with the
scalar alone, and it is refused for the same reason, unless the key is that of repeat counts. There
the two notations agree exactly if the scalar is no count and has no value but repeat counts. -/
theorem underDefault_iff (ctx : SheetContext) (depth depth' : Nat) (key : String) {n : Node}
    (h : n.isScalar = true) :
    (propertyOfNode ctx depth' key n.underDefault =
        (propertyOfNode ctx depth key n).map Property.underDefault ↔
      (key = repeatCountKey → ∀ text, n.scalarText? = some text →
        (∀ c, RepeatCount.parse text ≠ .ok c) ∧
          ∀ x, Value.ofNode (ctx.values key) n = .ok x → ∃ c, x = .repeatCount c)) ∧
    ∀ p, propertyOfNode ctx depth key n = .ok p →
      ∃ x, p = .ofValue key x ∧ p.underDefault = .ofValue key x.underDefault ∧
        x.underDefault.swiftType = x.swiftType := by
  rw [propertyOfNode_of_isScalar ctx depth key h, propertyOfNode_underDefault ctx depth' key h]
  refine ⟨?_, fun p hp => ?_⟩
  · rw [SheetContext.illegal_underDefault_iff, Value.ofNode_eq_ofScalar_iff ctx key h]
  · cases hvalue : Value.ofScalar ctx key n with
    | ok x =>
      rw [hvalue] at hp
      cases hp
      exact ⟨x, rfl, Property.underDefault_ofValue key x, rfl⟩
    | error e =>
      rw [hvalue] at hp
      cases hp

/-- A call of `repeatCount` is read as a value. -/
theorem parse_countCall (ctx : ValueContext) :
    Value.parse ctx "repeatCount(3)" = .ok (.repeatCount (.count 3)) := by
  have hexpr : Expr.parse "repeatCount(3)" =
      .ok (.call "repeatCount" [.mk none (.word "3") "3"]) := by cbv
  have hkeyword : Keyword.ofName? "repeatCount" = some .repeatCount := by decide +kernel
  have hcount : RepeatCount.parse "3" = .ok (.count 3) := by decide +kernel
  simp only [Value.parse, hexpr, Value.ofExpr, hkeyword, Value.ofCall, Value.repeatCountOfCall,
    Value.singleName, Value.single, Value.nameOf, Argument.value, Expr.text?, bind, Except.bind,
    hcount]
  rfl

/-- A call is no bare count, and its value is a repeat count in both places. -/
theorem underDefault_countCall :
    (Node.string "repeatCount(3)").isScalar = true ∧
      propertyOfNode ⟨"A", []⟩ 2 repeatCountKey (Node.string "repeatCount(3)").underDefault =
        (propertyOfNode ⟨"A", []⟩ 1 repeatCountKey (.string "repeatCount(3)")).map
          Property.underDefault := by
  refine ⟨rfl, (underDefault_iff _ 1 2 _ rfl).1.2 fun _ text htext => ?_⟩
  obtain rfl : "repeatCount(3)" = text := Option.some.inj htext
  have hcount : RepeatCount.parse "repeatCount(3)" = .error .repeatCount := by decide +kernel
  refine ⟨fun c hc => ?_, fun x hx => ⟨.count 3, ?_⟩⟩
  · rw [hcount] at hc
    cases hc
  · rw [Value.ofNode, parse_countCall] at hx
    exact (Except.ok.inj hx).symm

/-- A repeat count is read from a number alone, and in a branch the same number is an integer. -/
theorem repeatCount_underDefault :
    propertyOfNode ⟨"A", []⟩ 1 repeatCountKey (.number (.integer 3)) =
        .ok (.ofValue repeatCountKey (.repeatCount (.count 3))) ∧
      propertyOfNode ⟨"A", []⟩ 2 repeatCountKey (Node.number (.integer 3)).underDefault =
        .ok (.ofValue repeatCountKey (Value.int 3).underDefault) := by
  constructor
  · have hcount : Value.repeatCountOfNode ⟨some repeatCountKey, []⟩ (.number (.integer 3)) =
        .ok (.count 3) := by decide +kernel
    have hvalue : Value.ofScalar ⟨"A", []⟩ repeatCountKey (.number (.integer 3)) =
        .ok (.repeatCount (.count 3)) := congrArg (Except.map Value.repeatCount) hcount
    rw [propertyOfNode_of_isScalar _ _ _ rfl, hvalue]
    rfl
  · rw [propertyOfNode_underDefault _ _ _ rfl]
    rfl

end Style

end Appearance
