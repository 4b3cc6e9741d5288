import Appearance.Proofs.Order

/-!
# Runs that may fail

Loading, resolving and marking go on from step to step and stop at the first one that fails. A run
that succeeds does so in every step (`bind_eq_ok`, `forall₂_of_mapM`), and one that fails has the
error of a step (`bind_eq_error`, `exists_of_mapM_eq_error`). What each step of a fold keeps, the
fold keeps (`foldlM_ok`).

The lemmas are about `Except` and lists, and are stated here because every pass of the model is
such a run: `do` blocks are taken apart by `bind_eq_ok` and never by unfolding the monad.
`foldlM_ok` and `exists_of_foldlM_eq_error` take an invariant and give what a whole fold keeps and
where it can fail, and `forall₂_of_mapM` relates the elements of the result to those of the
argument by the step that made them. The error counterparts find the one step that failed.
-/

namespace Appearance

section Runs

variable {α β ε : Type} {e : ε}

/-! ## Steps one after the other -/

theorem bind_eq_ok {x : Except ε α} {f : α → Except ε β} {b : β} :
    x >>= f = .ok b ↔ ∃ a, x = .ok a ∧ f a = .ok b := by
  cases x <;> simp [bind, Except.bind]

theorem bind_eq_error {x : Except ε α} {f : α → Except ε β} :
    x >>= f = .error e ↔ x = .error e ∨ ∃ a, x = .ok a ∧ f a = .error e := by
  cases x <;> simp [bind, Except.bind]

theorem map_eq_ok {x : Except ε α} {f : α → β} {b : β} :
    x.map f = .ok b ↔ ∃ a, x = .ok a ∧ f a = b := by
  cases x <;> simp [Except.map]

theorem map_eq_error {x : Except ε α} {f : α → β} : x.map f = .error e ↔ x = .error e := by
  cases x <;> simp [Except.map]

theorem toOption_eq_some {x : Except ε α} {a : α} : x.toOption = some a ↔ x = .ok a := by
  cases x <;> simp [Except.toOption]

/-- A test of the result of a run that succeeds. -/
theorem exists_ok_of_any {x : Except ε α} {p : α → Bool} (h : x.toOption.any p = true) :
    ∃ a, x = .ok a ∧ p a = true := by
  cases x with
  | error e => cases h
  | ok a => exact ⟨a, rfl, h⟩

/-! ## The same step on every element -/

section Elements

variable {f : α → Except ε β}

/-- A step on every element succeeds on each of them. -/
theorem forall₂_of_mapM {l : List α} {m : List β} (h : l.mapM f = .ok m) :
    List.Forall₂ (fun a b => f a = .ok b) l m := by
  induction l generalizing m with
  | nil =>
    cases h
    exact .nil
  | cons a l ih =>
    rw [List.mapM_cons] at h
    obtain ⟨b, hb, h⟩ := bind_eq_ok.1 h
    obtain ⟨m, hm, h⟩ := bind_eq_ok.1 h
    cases h
    exact .cons hb (ih hm)

theorem rel_of_mapM {a : Option α} {b : Option β} (h : a.mapM f = .ok b) :
    Option.Rel (fun x y => f x = .ok y) a b := by
  cases a with
  | none =>
    cases h
    exact .none
  | some x =>
    rw [Option.mapM_some] at h
    obtain ⟨y, hy, rfl⟩ := map_eq_ok.1 h
    exact .some hy

/-- A step that leaves each element leaves the list. -/
theorem mapM_eq_self {f : α → Except ε α} {l : List α} (h : ∀ a ∈ l, f a = .ok a) :
    l.mapM f = .ok l := by
  induction l with
  | nil => rfl
  | cons a l ih =>
    rw [List.mapM_cons, h a List.mem_cons_self, ih fun b hb => h b (List.mem_cons_of_mem a hb)]
    rfl

theorem option_mapM_eq_self {f : α → Except ε α} {o : Option α} (h : ∀ a ∈ o, f a = .ok a) :
    o.mapM f = .ok o := by
  cases o with
  | none => rfl
  | some a =>
    rw [Option.mapM_some, h a rfl]
    rfl

/-- What holds of every result holds of all results together. -/
theorem forall_mem_of_mapM {p : β → Prop} {as : List α} {bs : List β} (h : as.mapM f = .ok bs)
    (hf : ∀ a b, f a = .ok b → p b) : ∀ b ∈ bs, p b :=
  fun b hb =>
    have ⟨a, _, hab⟩ := exists_mem_of_forall₂ (forall₂_of_mapM h) hb
    hf a b hab

/-- If each element gives a result related to a counterpart, all elements together do. -/
theorem exists_mapM_of_forall₂ {γ : Type} {R : α → γ → Prop} {S : β → γ → Prop} {l : List α}
    {m : List γ} (h : List.Forall₂ R l m) (hf : ∀ a c, R a c → ∃ b, f a = .ok b ∧ S b c) :
    ∃ bs, l.mapM f = .ok bs ∧ List.Forall₂ S bs m := by
  induction h with
  | nil => exact ⟨[], rfl, .nil⟩
  | cons ha _ ih =>
    obtain ⟨b, hb, hS⟩ := hf _ _ ha
    obtain ⟨bs, hbs, hall⟩ := ih
    exact ⟨b :: bs, by rw [List.mapM_cons, hb, hbs]; rfl, .cons hS hall⟩

/-- If it fails on the list, it fails on an element. -/
theorem exists_of_mapM_eq_error {l : List α} (h : l.mapM f = .error e) :
    ∃ a ∈ l, f a = .error e := by
  induction l with
  | nil => cases h
  | cons a l ih =>
    rw [List.mapM_cons] at h
    rcases bind_eq_error.1 h with ha | ⟨b, -, h⟩
    · exact ⟨a, List.mem_cons_self, ha⟩
    · rcases bind_eq_error.1 h with hl | ⟨m, -, h⟩
      · obtain ⟨c, hc, hce⟩ := ih hl
        exact ⟨c, List.mem_cons_of_mem a hc, hce⟩
      · cases h

/-- A check of all elements succeeds on each of them. -/
theorem forall_mem_of_forM {f : α → Except ε Unit} {l : List α} (h : l.forM f = .ok ()) :
    ∀ a ∈ l, f a = .ok () := by
  induction l with
  | nil => nofun
  | cons a l ih =>
    obtain ⟨_, ha, hl⟩ := bind_eq_ok.1 (show f a >>= (fun _ => l.forM f) = .ok () from h)
    exact List.forall_mem_cons.2 ⟨ha, ih hl⟩

/-- If it fails on an optional element, there is one. -/
theorem exists_of_option_mapM_eq_error {o : Option α} (h : o.mapM f = .error e) :
    ∃ a ∈ o, f a = .error e := by
  cases o with
  | none => cases h
  | some a =>
    rw [Option.mapM_some] at h
    exact ⟨a, rfl, map_eq_error.1 h⟩

end Elements

/-! ## Folds -/

section Folds

variable {f : β → α → Except ε β} {l : List α} {b b' : β} {p : β → Prop}
  (hf : ∀ a ∈ l, ∀ c d, p c → f c a = .ok d → p d)

include hf

/-- What each step of a fold keeps, the fold keeps. -/
theorem foldlM_ok (hb : p b) (h : l.foldlM f b = .ok b') : p b' := by
  induction l generalizing b with
  | nil =>
    cases h
    exact hb
  | cons a l ih =>
    rw [List.foldlM_cons] at h
    obtain ⟨c, hc, h⟩ := bind_eq_ok.1 h
    exact ih (fun a' ha' => hf a' (List.mem_cons_of_mem a ha'))
      (hf a List.mem_cons_self b c hb hc) h

/-- A fold fails in a step, and of what that starts from all holds that the steps keep. -/
theorem exists_of_foldlM_eq_error (hb : p b) (h : l.foldlM f b = .error e) :
    ∃ a ∈ l, ∃ c, p c ∧ f c a = .error e := by
  induction l generalizing b with
  | nil => cases h
  | cons a l ih =>
    rw [List.foldlM_cons] at h
    rcases bind_eq_error.1 h with ha | ⟨c, hc, h⟩
    · exact ⟨a, List.mem_cons_self, b, hb, ha⟩
    · obtain ⟨a', ha', hfail⟩ := ih (fun a' ha' => hf a' (List.mem_cons_of_mem a ha'))
        (hf a List.mem_cons_self b c hb hc) h
      exact ⟨a', List.mem_cons_of_mem a ha', hfail⟩

end Folds

end Runs

end Appearance
