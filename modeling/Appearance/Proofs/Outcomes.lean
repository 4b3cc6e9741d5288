import Appearance.Proofs.Runs

/-!
# Runs without their errors

Two readers that refuse a text for different reasons are compared by what they give. So runs that
may fail lose their errors here (`toOption_bind`, `toOption_mapM`), and what the same step gives on
every element is told from the elements (`option_mapM_eq_some_iff`). Two runs over the same elements
are related as the results of each element are (`rel_mapM_iff`).

Results are compared as options from here on: `Except.toOption` commutes with the steps of a run,
so the error can be dropped once at the outside. What remains are facts on `List.mapM` in `Option`,
which the library states for pure functions or for membership only. The relation in `rel_mapM_iff`
is the one between a call and a mapping that describe one keyframe.
-/

namespace Appearance

variable {α β γ ε : Type}

theorem toOption_map {x : Except ε α} {f : α → β} :
    (x.map f).toOption = x.toOption.map f := by
  cases x <;> rfl

theorem toOption_bind {x : Except ε α} {f : α → Except ε β} :
    (x >>= f).toOption = x.toOption.bind fun a => (f a).toOption := by
  cases x <;> rfl

theorem toOption_mapM {f : α → Except ε β} {l : List α} :
    (l.mapM f).toOption = l.mapM fun a => (f a).toOption := by
  induction l with
  | nil => rfl
  | cons a l ih =>
    rw [List.mapM_cons, List.mapM_cons, toOption_bind]
    refine Option.bind_congr fun b _ => ?_
    rw [toOption_bind, ih]
    rfl

/-- A step on a list gives what it gives on the elements. -/
theorem option_mapM_eq_some_iff {f : α → Option β} {l : List α} {m : List β} :
    l.mapM f = some m ↔ List.Forall₂ (fun a b => f a = some b) l m := by
  constructor
  · intro h
    induction l generalizing m with
    | nil =>
      cases h
      exact .nil
    | cons a l ih =>
      rw [List.mapM_cons] at h
      obtain ⟨b, hb, h⟩ := Option.bind_eq_some_iff.1 h
      obtain ⟨bs, hbs, h⟩ := Option.bind_eq_some_iff.1 h
      cases h
      exact .cons hb (ih hbs)
  · intro h
    induction h with
    | nil => rfl
    | cons hb _ ih =>
      rw [List.mapM_cons, hb, ih]
      rfl

theorem exists_of_mem_mapM {f : α → Option β} {l : List α} {m : List β} (h : l.mapM f = some m)
    {a : α} (ha : a ∈ l) : ∃ b, f a = some b :=
  have ⟨b, _, hb⟩ := exists_mem_of_forall₂ (option_mapM_eq_some_iff.1 h).flip ha
  ⟨b, hb⟩

/-- If it gives something on every element, it does so on the list. -/
theorem exists_mapM_of_forall_exists {f : α → Option β} {l : List α}
    (h : ∀ a ∈ l, ∃ b, f a = some b) : ∃ m, l.mapM f = some m := by
  induction l with
  | nil => exact ⟨[], rfl⟩
  | cons a l ih =>
    obtain ⟨⟨b, hb⟩, hl⟩ := List.forall_mem_cons.1 h
    obtain ⟨m, hm⟩ := ih hl
    exact ⟨b :: m, by rw [List.mapM_cons, hb, hm]; rfl⟩

/-- Elements that are made and then read are read one by one. -/
theorem bind_mapM {f : α → Option β} {g : β → Option γ} {l : List α} :
    ((l.mapM f).bind fun bs => bs.mapM g) = l.mapM fun a => (f a).bind g := by
  induction l with
  | nil => rfl
  | cons a l ih =>
    rw [List.mapM_cons, List.mapM_cons, ← ih]
    cases f a with
    | none => rfl
    | some b =>
      cases l.mapM f with
      | none => cases hb : g b <;> simp [hb]
      | some bs => simp

/-- Elements that have been made are read as the ones that they were made of. -/
theorem mapM_of_mapM {f : α → Option β} {g : β → Option γ} {h : α → Option γ}
    {l : List α} {m : List β} (hl : l.mapM f = some m) (hgh : ∀ a b, f a = some b → g b = h a) :
    m.mapM g = l.mapM h := by
  induction l generalizing m with
  | nil =>
    cases hl
    rfl
  | cons a l ih =>
    rw [List.mapM_cons] at hl
    obtain ⟨b, hb, hl⟩ := Option.bind_eq_some_iff.1 hl
    obtain ⟨bs, hbs, hl⟩ := Option.bind_eq_some_iff.1 hl
    cases hl
    rw [List.mapM_cons, List.mapM_cons, hgh a b hb, ih hbs]

/-- Results of the same elements are related one by one. -/
theorem forall₂_of_mapM_of_mapM {f : α → Option β} {g : α → Option γ} {R : β → γ → Prop}
    {l : List α} {m : List β} {n : List γ} (hm : l.mapM f = some m) (hn : l.mapM g = some n)
    (h : ∀ a ∈ l, ∀ b c, f a = some b → g a = some c → R b c) : List.Forall₂ R m n := by
  rw [option_mapM_eq_some_iff] at hm hn
  induction hm generalizing n with
  | nil =>
    cases hn
    exact .nil
  | @cons a b l m hab _ ih =>
    cases hn with
    | cons hac hrest =>
      exact .cons (h a List.mem_cons_self b _ hab hac)
        (ih hrest fun a ha => h a (List.mem_cons_of_mem _ ha))

/-- Results that are related one by one belong to the same elements. -/
theorem exists_of_mapM_of_forall₂ {f : α → Option β} {g : α → Option γ} {R : β → γ → Prop}
    {l : List α} {m : List β} {n : List γ} (hm : l.mapM f = some m) (hn : l.mapM g = some n)
    (h : List.Forall₂ R m n) : ∀ a ∈ l, ∃ b c, f a = some b ∧ g a = some c ∧ R b c := by
  rw [option_mapM_eq_some_iff] at hm hn
  induction hm generalizing n with
  | nil => nofun
  | @cons a b l m hab _ ih =>
    cases hn with
    | cons hac hrest =>
      cases h with
      | cons hbc hmore => exact List.forall_mem_cons.2 ⟨⟨b, _, hab, hac, hbc⟩, ih hrest hmore⟩

/-- Two runs over the same elements are related if either ends only where every element has related
results. -/
theorem rel_mapM_iff {f : α → Option β} {g : α → Option γ} {R : β → γ → Prop} {l : List α} :
    Option.Rel (List.Forall₂ R) (l.mapM f) (l.mapM g) ↔
      ((l.mapM f).isSome = true ∨ (l.mapM g).isSome = true →
        ∀ a ∈ l, ∃ b c, f a = some b ∧ g a = some c ∧ R b c) := by
  constructor
  · intro h
    generalize hm : l.mapM f = m, hn : l.mapM g = n at h
    cases h with
    | none => rintro (h | h) <;> cases h
    | some h => exact fun _ => exists_of_mapM_of_forall₂ hm hn h
  · intro h
    by_cases hsome : (l.mapM f).isSome = true ∨ (l.mapM g).isSome = true
    · have hall := h hsome
      obtain ⟨m, hm⟩ : ∃ m, l.mapM f = some m := exists_mapM_of_forall_exists fun a ha =>
        have ⟨b, _, hb, _⟩ := hall a ha
        ⟨b, hb⟩
      obtain ⟨n, hn⟩ : ∃ n, l.mapM g = some n := exists_mapM_of_forall_exists fun a ha =>
        have ⟨_, c, _, hc, _⟩ := hall a ha
        ⟨c, hc⟩
      rw [hm, hn]
      refine .some (forall₂_of_mapM_of_mapM hm hn fun a ha b c hb hc => ?_)
      obtain ⟨b', c', hb', hc', hbc⟩ := hall a ha
      obtain rfl := Option.some.inj (hb.symm.trans hb')
      obtain rfl := Option.some.inj (hc.symm.trans hc')
      exact hbc
    · rw [not_or, Option.not_isSome_iff_eq_none, Option.not_isSome_iff_eq_none] at hsome
      rw [hsome.1, hsome.2]
      exact .none

end Appearance
