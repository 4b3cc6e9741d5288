import Appearance.Proofs.NumberTexts
import Appearance.Proofs.Spellings
import Mathlib.Data.List.Find

/-!
# The branch that an accessor takes

An accessor of a conditional value is a chain of tests and one last return. The branches are sorted
by `Condition.order`, so fallbacks stand behind all others, and of two others the shorter stands
first (`Value.TestOrder`). Branches with distinct keys are sorted in one way only
(`Value.ofBranches_perm`).

`Statement.run` runs the statements for an assignment of truth to comparisons and gives the first
branch whose condition holds, else the last one (`Value.TestOrder.run_returnStatements`).
`executeLines` runs printed lines for an assignment to the texts of comparisons; since no
comparison has a brace or an ampersand in its text, every line is read back as it was printed, and
the lines return what the statements return (`Statement.executeLines_map_toSwift`).
-/

namespace Appearance

open Appearance.Text

/-! ## Conditions under an assignment -/

/-- The expression holds, given which comparisons hold. -/
def Expression.holds (truth : Comparison → Bool) : Expression → Bool
  | always _ => true
  | comparison _ left comparator right => truth ⟨left, comparator, right⟩

/-- A fallback holds always; another condition holds if all its comparisons do. -/
def Condition.holds (truth : Comparison → Bool) (c : Condition) : Bool :=
  c.isDefault || c.expressions.all (Expression.holds truth)

namespace Value

/-- The value of the first branch whose condition holds, else that of the last branch. -/
def taken? (truth : Comparison → Bool) (branches : List (Condition × Value)) : Option Value :=
  ((branches.find? fun b => b.1.holds truth) <|> branches.getLast?).map (·.2)

/-- The value that the statements of an accessor return. A test is the conjunction of all
expressions of its condition. -/
def Statement.run (truth : Comparison → Bool) : List Statement → Option Value
  | [] => none
  | .returnIf c v :: rest =>
    if c.expressions.all (Expression.holds truth) then some v else run truth rest
  | .returnAlways v :: _ => some v

/-! ## Sorted branches -/

theorem order_eq_compareLex :
    Condition.order = compareLex (compareOn Condition.isDefault)
      (compareLex (compareOn fun c => c.raw.length) (compareOn Condition.raw)) := rfl

instance : Std.TransCmp Condition.order := by
  rw [order_eq_compareLex]
  infer_instance

/-- The order of branches by their conditions. -/
def branchLE (a b : Condition × Value) : Bool := (Condition.order a.1 b.1).isLE

theorem branchLE_trans (a b c : Condition × Value) (hab : branchLE a b = true)
    (hbc : branchLE b c = true) : branchLE a c = true :=
  Std.TransCmp.isLE_trans hab hbc

theorem branchLE_total (a b : Condition × Value) : (branchLE a b || branchLE b a) = true := by
  have h : Condition.order b.1 a.1 = (Condition.order a.1 b.1).swap := Std.OrientedCmp.eq_swap
  unfold branchLE
  rw [h]
  cases Condition.order a.1 b.1 <;> rfl

/-- Conditions that are in both orders have one key. -/
theorem raw_eq_of_order {a b : Condition} (hab : (Condition.order a b).isLE = true)
    (hba : (Condition.order b a).isLE = true) : a.raw = b.raw := by
  have h := Std.OrientedCmp.isLE_antisymm hab hba
  rw [Condition.order, Ordering.then_eq_eq, Ordering.then_eq_eq] at h
  exact Std.LawfulEqCmp.eq_of_compare h.2.2

theorem order_of_raw_eq {a b : Condition} (h : a.raw = b.raw) : Condition.order a b = .eq := by
  have hdefault : a.isDefault = b.isDefault := by rw [Condition.isDefault, h, Condition.isDefault]
  rw [Condition.order, hdefault, h]
  simp only [Ordering.then_eq_eq, Std.ReflCmp.compare_self, and_self]

/-- Behind a fallback stand fallbacks only. -/
theorem isDefault_of_order {a b : Condition} (h : (Condition.order a b).isLE = true)
    (ha : a.isDefault = true) : b.isDefault = true := by
  rw [Condition.order, Ordering.isLE_then_iff_and, ha] at h
  cases hb : b.isDefault with
  | true => rfl
  | false =>
    rw [hb] at h
    exact absurd h.1 (by decide)

/-- Of two conditions that are no fallbacks the shorter one stands first. -/
theorem length_le_of_order {a b : Condition} (h : (Condition.order a b).isLE = true)
    (hab : a.isDefault = b.isDefault) : a.raw.length ≤ b.raw.length := by
  have hrefl : compare b.isDefault b.isDefault = .eq := Std.ReflCmp.compare_self
  rw [Condition.order, hab, hrefl, Ordering.eq_then, Ordering.isLE_then_iff_and] at h
  exact Nat.isLE_compare.1 h.1

/-- A list in which all elements of one kind stand behind the others. -/
theorem eq_filter_append_filter {α : Type} {p : α → Bool} {l : List α}
    (h : l.Pairwise fun a b => p a = true → p b = true) :
    l = (l.filter fun a => !p a) ++ l.filter p := by
  induction l with
  | nil => rfl
  | cons a l ih =>
    obtain ⟨ha, hl⟩ := List.pairwise_cons.1 h
    cases hp : p a with
    | false =>
      rw [List.filter_cons_of_pos (by simp [hp]), List.filter_cons_of_neg (by simp [hp]),
        List.cons_append, ← ih hl]
    | true =>
      have hall : ∀ b ∈ l, p b = true := fun b hb => ha b hb hp
      have hnone : (a :: l).filter (fun b => !p b) = [] :=
        List.filter_eq_nil_iff.2 fun b hb => by
          rcases List.mem_cons.1 hb with rfl | hb
          · simp [hp]
          · simp [hall b hb]
      rw [hnone, List.nil_append, List.filter_eq_self.2]
      rintro b hb
      rcases List.mem_cons.1 hb with rfl | hb
      · exact hp
      · exact hall b hb

/-- The branches in the order of their conditions: those that are tested, by ascending length, and
behind them the fallbacks. Branches of one key keep their order. -/
structure TestOrder (branches tested fallbacks : List (Condition × Value)) : Prop where
  perm : (tested ++ fallbacks).Perm branches
  ordered : (tested ++ fallbacks).Pairwise fun a b => (Condition.order a.1 b.1).isLE = true
  stable : ∀ c : Condition,
    (tested ++ fallbacks).filter (·.1.sameKey c) = branches.filter (·.1.sameKey c)
  not_isDefault : ∀ b ∈ tested, b.1.isDefault = false
  isDefault : ∀ b ∈ fallbacks, b.1.isDefault = true
  ascending : tested.Pairwise fun a b => a.1.raw.length ≤ b.1.raw.length

/-- Sorted branches are tests in order with the fallbacks behind them. -/
theorem exists_testOrder (branches : List (Condition × Value)) :
    ∃ tested fallbacks, branches.mergeSort branchLE = tested ++ fallbacks ∧
      TestOrder branches tested fallbacks := by
  have hordered := List.pairwise_mergeSort branchLE_trans branchLE_total branches
  have hsplit := eq_filter_append_filter (p := fun b : Condition × Value => b.1.isDefault)
    (hordered.imp fun hab ha => isDefault_of_order hab ha)
  refine ⟨_, _, hsplit, ?_⟩
  constructor
  case perm => exact hsplit ▸ List.mergeSort_perm branches branchLE
  case ordered => exact hsplit ▸ hordered
  case stable =>
    intro c
    rw [← hsplit]
    refine filter_mergeSort_of_le branchLE_trans branchLE_total (fun a b ha hb => ?_) branches
    have hab : a.1.raw = b.1.raw := (beq_iff_eq.1 ha).trans (beq_iff_eq.1 hb).symm
    rw [branchLE, order_of_raw_eq hab]
    rfl
  case not_isDefault => exact fun b hb => by simpa using (List.mem_filter.1 hb).2
  case isDefault => exact fun b hb => (List.mem_filter.1 hb).2
  case ascending =>
    refine (hordered.filter _).imp_of_mem fun {a b} ha hb hab => length_le_of_order hab ?_
    have ha := (List.mem_filter.1 ha).2
    have hb := (List.mem_filter.1 hb).2
    simp only [Bool.not_eq_true'] at ha hb
    rw [ha, hb]

/-- Distinct keys leave one order only. -/
theorem ofBranches_perm {branches others : List (Condition × Value)}
    (hdistinct : branches.Pairwise fun a b => a.1.sameKey b.1 = false)
    (hperm : others.Perm branches) : ofBranches others = ofBranches branches := by
  have hkeys : (branches.map fun b => b.1.raw).Nodup :=
    List.pairwise_map.2 (hdistinct.imp fun hab => by simpa [Condition.sameKey] using hab)
  have hsort : others.mergeSort branchLE = branches.mergeSort branchLE := by
    refine List.Perm.eq_of_pairwise (fun a b ha hb hab hba => ?_)
      (List.pairwise_mergeSort branchLE_trans branchLE_total others)
      (List.pairwise_mergeSort branchLE_trans branchLE_total branches)
      ((List.mergeSort_perm others branchLE).trans
        (hperm.trans (List.mergeSort_perm branches branchLE).symm))
    exact eq_of_mem_of_nodup hkeys (hperm.mem_iff.1 (List.mem_mergeSort.1 ha))
      (List.mem_mergeSort.1 hb) (raw_eq_of_order hab hba)
  exact congrArg conditional hsort

/-! ## Running the statements -/

/-- The first test that holds decides, and if none does what follows them. -/
theorem Statement.run_append (truth : Comparison → Bool) (tested : List (Condition × Value))
    (rest : List Statement) :
    run truth ((tested.map fun b => .returnIf b.1 b.2) ++ rest) =
      ((tested.find? fun b => b.1.expressions.all (Expression.holds truth)).map (·.2)
        <|> run truth rest) := by
  induction tested with
  | nil => rfl
  | cons b tested ih =>
    rw [List.map_cons, List.cons_append, run, List.find?_cons]
    cases b.1.expressions.all (Expression.holds truth) with
    | true => rfl
    | false => exact ih

/-- The statements are the tests in order and then a return of the first fallback, or of the last
branch if there is none. -/
theorem TestOrder.returnStatements {branches tested fallbacks : List (Condition × Value)}
    (h : TestOrder branches tested fallbacks) :
    returnStatements (.conditional (tested ++ fallbacks)) =
      (tested.map fun b => .returnIf b.1 b.2) ++
        (((fallbacks.head? <|> tested.getLast?).map (·.2)).map .returnAlways).toList := by
  have htest : (tested ++ fallbacks).filter (fun b => !b.1.isDefault) = tested := by
    rw [List.filter_append, List.filter_eq_self.2 fun b hb => by simp [h.not_isDefault b hb],
      List.filter_eq_nil_iff.2 fun b hb => by simp [h.isDefault b hb], List.append_nil]
  have hlast : fallback? (tested ++ fallbacks) =
      (fallbacks.head? <|> tested.getLast?).map (·.2) := by
    have hfind : tested.find? (fun b => b.1.isDefault) = none :=
      List.find?_eq_none.2 fun b hb => by simp [h.not_isDefault b hb]
    unfold fallback?
    rw [List.find?_append, hfind, Option.none_or]
    cases hfallbacks : fallbacks with
    | nil =>
      rw [List.append_nil]
      rfl
    | cons b rest =>
      rw [List.find?_cons, h.isDefault b (hfallbacks ▸ List.mem_cons_self)]
      rfl
  rw [Value.returnStatements, htest, hlast]

/-- The statements return the value of the first branch whose condition holds. -/
theorem TestOrder.run_returnStatements {branches tested fallbacks : List (Condition × Value)}
    (h : TestOrder branches tested fallbacks) (truth : Comparison → Bool) :
    Statement.run truth (Value.returnStatements (.conditional (tested ++ fallbacks))) =
      taken? truth (tested ++ fallbacks) := by
  have htest : tested.find? (fun b => b.1.holds truth) =
      tested.find? fun b => b.1.expressions.all (Expression.holds truth) :=
    List.find?_congr fun b hb => by rw [Condition.holds, h.not_isDefault b hb, Bool.false_or]
  rw [h.returnStatements, Statement.run_append, taken?, List.find?_append, htest]
  cases tested.find? fun b => b.1.expressions.all (Expression.holds truth) with
  | some b => rfl
  | none =>
    cases hfallbacks : fallbacks with
    | nil =>
      rw [List.append_nil]
      cases tested.getLast? <;> rfl
    | cons b rest =>
      have hb : b.1.holds truth = true := by
        rw [Condition.holds, h.isDefault b (hfallbacks ▸ List.mem_cons_self), Bool.true_or]
      rw [List.find?_cons, hb]
      rfl

/-- Of branches that are not empty one is taken. -/
theorem exists_taken {branches : List (Condition × Value)} (hne : branches ≠ [])
    (truth : Comparison → Bool) : ∃ v, taken? truth branches = some v := by
  obtain ⟨last, hlast⟩ := Option.isSome_iff_exists.1 (List.getLast?_isSome.2 hne)
  rw [taken?, hlast]
  cases branches.find? fun b => b.1.holds truth with
  | some b => exact ⟨b.2, rfl⟩
  | none => exact ⟨last.2, rfl⟩

end Value

/-! ## Characters of printed comparisons -/

namespace Code

/-- The character has no part in the frame of a statement: it is no brace and joins no
comparisons. -/
def isInner (c : Char) : Bool := c != '\x7b' && c != '&'

theorem isInner_of_isDigit {c : Char} (h : c.isDigit = true) : isInner c = true := by
  unfold isInner
  rw [Bool.and_eq_true, bne_iff_ne, bne_iff_ne]
  constructor <;> rintro rfl <;> exact absurd h (by decide)

theorem isInner_number (x : Double) : ∀ c ∈ (number x).toList, isInner c = true :=
  forall_mem_number (fun _ => isInner_of_isDigit) (by decide) x

end Code

open Code

theorem Metric.isInner_toSwift (m : Metric) : ∀ c ∈ m.toSwift.toList, isInner c = true := by
  cases m <;> decide

theorem Term.isInner_toSwift (t : Term) : ∀ c ∈ t.toSwift.toList, isInner c = true := by
  cases t with
  | constant value => exact isInner_number value
  | contentSize size => cases size <;> decide
  | _ => decide

theorem Comparison.isInner_toSwift (c : Comparison) : ∀ d ∈ c.toSwift.toList, isInner d = true := by
  have hcomparator : ∀ d ∈ c.comparator.toSwift.toList, isInner d = true := by
    cases c.comparator <;> decide
  simp only [Comparison.toSwift, String.toList_append, List.forall_mem_append]
  exact ⟨⟨⟨⟨c.left.isInner_toSwift, by decide⟩, hcomparator⟩, by decide⟩, c.right.isInner_toSwift⟩

/-! ## Printed lines -/

/-- The texts of the comparisons before which a printed statement returns, and the text of what it
returns. -/
structure PrintedStatement where
  tests : List String
  expression : String

/-- Reads a line of an accessor: a test before the first brace and what is returned behind it, or
an unconditional return. -/
def PrintedStatement.read? (line : String) : Option PrintedStatement :=
  match stripPrefix? "if " line with
  | some rest =>
    let test := (rest.toList.takeWhile (· != '\x7b')).dropLast
    let body := String.ofList (rest.toList.dropWhile (· != '\x7b'))
    ((stripPrefix? "\x7b return " body).bind (stripSuffix? " \x7d")).map fun expression =>
      ⟨(splitAtText " && ".toList test).map String.ofList, expression⟩
  | none => (stripPrefix? "return " line).map fun expression => ⟨[], expression⟩

/-- What printed lines return, given which texts of comparisons hold. A line that is no statement
of an accessor stops the run. -/
def executeLines (truth : String → Bool) : List String → Option String
  | [] => none
  | line :: lines =>
    (PrintedStatement.read? line).bind fun s =>
      if s.tests.all fun test => test == "true" || truth test then some s.expression
      else executeLines truth lines

namespace Expression

theorem isInner_toSwift : (e : Expression) → ∀ c ∈ e.toSwift.toList, isInner c = true
  | always _ => show ∀ c ∈ "true".toList, isInner c = true by decide
  | comparison _ left comparator right => Comparison.isInner_toSwift ⟨left, comparator, right⟩

/-- A printed comparison holds as its text does. -/
theorem holds_eq (truth : String → Bool) (e : Expression) :
    (e.toSwift == "true" || truth e.toSwift) = e.holds fun c => truth c.toSwift := by
  cases e with
  | always raw => rfl
  | comparison raw left comparator right =>
    have hne : (comparison raw left comparator right).toSwift ≠ "true" := fun h => by
      have hblank : ' ' ∈ (comparison raw left comparator right).toSwift.toList := by
        simp [toSwift, String.toList_append]
      rw [h] at hblank
      exact absurd hblank (by decide)
    rw [beq_eq_false_iff_ne.2 hne, Bool.false_or]
    rfl

end Expression

/-- The text of a conjunction is split into the texts of its parts. -/
theorem Condition.splitAtText_toSwift {c : Condition} (hc : c.expressions ≠ []) :
    (splitAtText " && ".toList c.toSwift.toList).map String.ofList =
      c.expressions.map Expression.toSwift := by
  have hparts : ∀ p ∈ (c.expressions.map Expression.toSwift).map String.toList,
      ¬ [' ', '&'] <:+: p := by
    simp only [List.forall_mem_map]
    exact fun e _ h => absurd (e.isInner_toSwift '&' (h.subset (by simp))) (by decide)
  have hsplit :=
    @splitAtText_intercalate ' ' '&' "& ".toList (by decide) _ (by simpa using hc) hparts
  rw [toSwift, String.toList_intercalate]
  refine (congrArg (List.map String.ofList) hsplit).trans ?_
  rw [List.map_map]
  exact (List.map_congr_left fun s _ => String.ofList_toList).trans (List.map_id _)

theorem Condition.no_brace_toSwift (c : Condition) :
    ∀ d ∈ c.toSwift.toList, (d != '\x7b') = true := by
  rw [toSwift, String.toList_intercalate]
  refine forall_mem_intercalate (by decide) ?_
  simp only [List.forall_mem_map]
  exact fun e _ d hd => (Bool.and_eq_true_iff.1 (e.isInner_toSwift d hd)).1

namespace Value.Statement

/-- A printed test is read back. -/
theorem read?_returnIf (manager : Option String) {c : Condition} (hc : c.expressions ≠ [])
    (v : Value) :
    PrintedStatement.read? ((returnIf c v).toSwift manager) =
      some ⟨c.expressions.map Expression.toSwift, v.toSwift manager⟩ := by
  have hopen : " \x7b return " = " " ++ "\x7b return " := by decide
  have hline : (returnIf c v).toSwift manager =
      "if " ++ (c.toSwift ++ " " ++ ("\x7b return " ++ (v.toSwift manager ++ " \x7d"))) := by
    rw [toSwift, hopen]
    simp only [String.append_assoc]
  have hbrace : ∀ d ∈ (c.toSwift ++ " ").toList, (d != '\x7b') = true := by
    rw [String.toList_append]
    exact List.forall_mem_append.2 ⟨c.no_brace_toSwift, by decide⟩
  rw [hline, PrintedStatement.read?, stripPrefix?_append]
  dsimp only
  rw [String.toList_append, List.takeWhile_append_of_pos hbrace,
    List.dropWhile_append_of_pos hbrace, String.toList_append]
  have hrest :
      ("\x7b return " ++ (v.toSwift manager ++ " \x7d")).toList.takeWhile (· != '\x7b') = [] ∧
        ("\x7b return " ++ (v.toSwift manager ++ " \x7d")).toList.dropWhile (· != '\x7b') =
          ("\x7b return " ++ (v.toSwift manager ++ " \x7d")).toList := by
    rw [String.toList_append]
    exact ⟨rfl, rfl⟩
  rw [← String.toList_append, hrest.1, hrest.2, List.append_nil, String.ofList_toList,
    stripPrefix?_append, Option.bind_some, stripSuffix?_append, String.toList_append]
  have hspace : (c.toSwift.toList ++ " ".toList).dropLast = c.toSwift.toList :=
    List.dropLast_concat
  rw [hspace, c.splitAtText_toSwift hc]
  rfl

/-- A printed return is read back. -/
theorem read?_returnAlways (manager : Option String) (v : Value) :
    PrintedStatement.read? ((returnAlways v).toSwift manager) = some ⟨[], v.toSwift manager⟩ := by
  have hother : stripPrefix? "if " ("return " ++ v.toSwift manager) = none := by
    rw [stripPrefix?, String.toList_append]
    rfl
  rw [toSwift, PrintedStatement.read?, hother]
  dsimp only
  rw [stripPrefix?_append]
  rfl

/-- Running printed statements returns the text of what running the statements returns. -/
theorem executeLines_map_toSwift (manager : Option String) (truth : String → Bool)
    {statements : List Statement}
    (h : ∀ c v, returnIf c v ∈ statements → c.expressions ≠ []) :
    executeLines truth (statements.map (toSwift manager)) =
      (run (fun c => truth c.toSwift) statements).map (Value.toSwift manager) := by
  induction statements with
  | nil => rfl
  | cons s statements ih =>
    have hrest := ih fun c v hmem => h c v (List.mem_cons_of_mem s hmem)
    cases s with
    | returnIf c v =>
      have htests : (c.expressions.map Expression.toSwift).all
          (fun test => test == "true" || truth test) =
          c.expressions.all (Expression.holds fun c => truth c.toSwift) := by
        rw [List.all_map]
        exact congrArg (c.expressions.all ·) (funext fun e => e.holds_eq truth)
      rw [List.map_cons, executeLines, read?_returnIf manager (h c v List.mem_cons_self),
        Option.bind_some, htests, run]
      split
      · rfl
      · exact hrest
    | returnAlways v =>
      rw [List.map_cons, executeLines, read?_returnAlways]
      rfl

end Value.Statement

theorem Condition.expressions_ne_nil {text : String} {c : Condition}
    (h : parse text = .ok c) : c.expressions ≠ [] := by
  unfold parse parseChars at h
  dsimp only at h
  split at h
  · next expressions hparts =>
    cases h
    have hlength := (forall₂_of_mapM hparts).length_eq
    intro hnil
    change expressions = [] at hnil
    rw [hnil] at hlength
    exact splitTextFrom_ne_nil _ _ _ _ (List.length_eq_zero_iff.1 hlength)
  · cases h

namespace Value

/-- For branches whose conditions were read from texts, the accessor tests those that are no
fallbacks, by ascending length, and returns unconditionally at its end. Whichever comparisons hold,
its statements, also as they are printed, return the value of the first branch in this order whose
condition holds, else that of the last branch. If no two branches have one key, the order in which
they were given does not matter to the printed lines. -/
theorem accessor_takes_branch (manager : Option String) {branches : List (Condition × Value)}
    (hne : branches ≠ []) (hread : ∀ b ∈ branches, ∃ text, Condition.parse text = .ok b.1) :
    ∃ tested fallbacks, TestOrder branches tested fallbacks ∧
      ofBranches branches = .conditional (tested ++ fallbacks) ∧
      (∃ last, (ofBranches branches).returnStatements =
        (tested.map fun b => .returnIf b.1 b.2) ++ [.returnAlways last]) ∧
      (∀ truth : Comparison → Bool, ∃ v, taken? truth (tested ++ fallbacks) = some v ∧
        Statement.run truth (ofBranches branches).returnStatements = some v) ∧
      (∀ truth : String → Bool, ∃ v,
        taken? (fun c => truth c.toSwift) (tested ++ fallbacks) = some v ∧
        executeLines truth ((ofBranches branches).returnLines manager) =
          some (v.toSwift manager)) ∧
      (branches.Pairwise (fun a b => a.1.sameKey b.1 = false) → ∀ others, others.Perm branches →
        (ofBranches others).returnLines manager = (ofBranches branches).returnLines manager) := by
  obtain ⟨tested, fallbacks, hsorted, horder⟩ := exists_testOrder branches
  have hbranches : ofBranches branches = .conditional (tested ++ fallbacks) :=
    congrArg conditional hsorted
  have hnonempty : tested ++ fallbacks ≠ [] := fun h =>
    hne (List.Perm.nil_eq (h ▸ horder.perm)).symm
  have hrun := horder.run_returnStatements
  rw [← hbranches] at hrun
  refine ⟨tested, fallbacks, horder, hbranches, ?_, fun truth => ?_, fun truth => ?_,
    fun hdistinct others hperm => by rw [ofBranches_perm hdistinct hperm]⟩
  · obtain ⟨last, hlast⟩ : ∃ last, (fallbacks.head? <|> tested.getLast?) = some last := by
      cases hfallbacks : fallbacks with
      | cons b rest => exact ⟨b, rfl⟩
      | nil =>
        rw [hfallbacks, List.append_nil] at hnonempty
        exact Option.isSome_iff_exists.1 (List.getLast?_isSome.2 hnonempty)
    refine ⟨last.2, ?_⟩
    rw [hbranches, horder.returnStatements, hlast]
    rfl
  · obtain ⟨v, hv⟩ := exists_taken hnonempty truth
    exact ⟨v, hv, (hrun truth).trans hv⟩
  · obtain ⟨v, hv⟩ := exists_taken hnonempty fun c => truth c.toSwift
    refine ⟨v, hv, ?_⟩
    have hguards : ∀ c w, Statement.returnIf c w ∈ (ofBranches branches).returnStatements →
        c.expressions ≠ [] := by
      intro c w hmem
      rw [hbranches, horder.returnStatements, List.mem_append] at hmem
      rcases hmem with hmem | hmem
      · obtain ⟨b, hb, hstatement⟩ := List.mem_map.1 hmem
        obtain ⟨rfl, -⟩ := Statement.returnIf.inj hstatement
        obtain ⟨text, htext⟩ := hread b (horder.perm.mem_iff.1 (List.mem_append_left _ hb))
        exact Condition.expressions_ne_nil htext
      · obtain ⟨u, -, hu⟩ := Option.map_eq_some_iff.1 (Option.mem_toList.1 hmem)
        cases hu
    rw [returnLines, Statement.executeLines_map_toSwift manager truth hguards, hrun, hv]
    rfl

/-- Branches in no order: the fallback, a conjunction and a shorter comparison. -/
def paddingBranches : List (Condition × Value) :=
  [(⟨"default", [.always "default"]⟩, .int 8),
    (⟨"height>width and idiom=pad", [.comparison "height>width" .height .greaterThan .width,
      .comparison "idiom=pad" .idiom .equal .pad]⟩, .int 24),
    (⟨"horizontal=compact", [.comparison "horizontal=compact" .horizontal .equal .compact]⟩,
      .int 12)]

theorem parse_paddingBranches : ∀ b ∈ paddingBranches, ∃ text, Condition.parse text = .ok b.1 := by
  simp only [paddingBranches, List.forall_mem_cons]
  exact ⟨⟨"default", rfl⟩, ⟨"height > width and idiom = pad", rfl⟩, ⟨"horizontal = compact", rfl⟩,
    nofun⟩

/-- Three branches in a source, sorted and run. -/
theorem accessor_takes_paddingBranch :
    paddingBranches ≠ [] ∧ (∀ b ∈ paddingBranches, ∃ text, Condition.parse text = .ok b.1) ∧
      ∃ tested fallbacks, TestOrder paddingBranches tested fallbacks ∧
        ofBranches paddingBranches = .conditional (tested ++ fallbacks) ∧
        ∀ truth : String → Bool, ∃ v,
          taken? (fun c => truth c.toSwift) (tested ++ fallbacks) = some v ∧
          executeLines truth ((ofBranches paddingBranches).returnLines none) =
            some (v.toSwift none) := by
  obtain ⟨tested, fallbacks, horder, hbranches, -, -, hlines, -⟩ :=
    accessor_takes_branch none (List.cons_ne_nil _ _) parse_paddingBranches
  exact ⟨List.cons_ne_nil _ _, parse_paddingBranches, tested, fallbacks, horder, hbranches, hlines⟩

end Value

end Appearance
