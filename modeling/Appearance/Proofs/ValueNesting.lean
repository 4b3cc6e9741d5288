import Appearance.Proofs.Order
import Appearance.Suite.Redirects

/-!
# Values inside values

A value holds others as the branches of a condition and as the items of an array; any other value
is a redirect or a literal. `Value.induction` is the induction over that nesting.

Resolving the redirects of a value changes nothing beside them: `Value.plain` forgets what was
resolved, and `plain_mapRedirects` says that the rest stays. The type of a value does not depend on
all of its redirects: those on which it does are `Value.followed`.

The type of a conditional value is that of its first branch, so `Value.followed` looks into no
other one; in an array it looks into all items.

The three mutual recursions on values, items and branches are replaced by equations with `List.map`
and `List.flatMap`, and the principle of induction gives hypotheses for all members of a list at
once. So the proofs about values in other modules have three cases, a literal, an array and a
conditional value, with the redirect beside them, and no auxiliary statements about lists.
-/

namespace Appearance.Value

/-- The value holds no other value, nor does it lead to one. -/
def isLiteral : Value → Bool
  | redirect _ => false
  | conditional _ => false
  | array _ => false
  | _ => true

/-- What holds of literals and redirects, and of a value as soon as it holds of the values in it,
holds of every value. -/
@[elab_as_elim]
theorem induction {motive : Value → Prop} (literal : ∀ v, v.isLiteral = true → motive v)
    (redirect : ∀ r, motive (redirect r))
    (conditional : ∀ bs, (∀ c v, (c, v) ∈ bs → motive v) → motive (conditional bs))
    (array : ∀ vs, (∀ v ∈ vs, motive v) → motive (array vs)) (v : Value) : motive v := by
  refine @Value.rec motive (fun bs => ∀ c v, (c, v) ∈ bs → motive v) (fun vs => ∀ v ∈ vs, motive v)
    (fun b => motive b.2) ?_ ?_ ?_ ?_ ?_ ?_ ?_ ?_ ?_ ?_ ?_ ?_ redirect conditional ?_ ?_ ?_ ?_ ?_ ?_
    ?_ ?_ array ?_ ?_ ?_ ?_ ?_ ?_ v
  case refine_22 => exact fun c v hv => by cases hv
  case refine_23 =>
    intro b bs hb hbs c v hv
    rcases List.mem_cons.1 hv with rfl | hv
    · exact hb
    · exact hbs c v hv
  case refine_24 => exact fun v hv => by cases hv
  case refine_25 => exact fun v vs hv hvs => List.forall_mem_cons.2 ⟨hv, hvs⟩
  case refine_26 => exact fun _ _ hv => hv
  all_goals
    intros
    exact literal _ rfl

/-! ## Redirects in a value -/

theorem redirectsOfItems_eq (vs : List Value) : redirectsOfItems vs = vs.flatMap redirects := by
  induction vs with
  | nil => rfl
  | cons v vs ih => rw [redirectsOfItems, ih, List.flatMap_cons]

theorem redirectsOfBranches_eq (bs : List (Condition × Value)) :
    redirectsOfBranches bs = bs.flatMap fun b => b.2.redirects := by
  induction bs with
  | nil => rfl
  | cons b bs ih => rw [redirectsOfBranches, ih, List.flatMap_cons]

theorem redirects_array (vs : List Value) : (array vs).redirects = vs.flatMap redirects := by
  rw [redirects, redirectsOfItems_eq]

theorem redirects_conditional (bs : List (Condition × Value)) :
    (conditional bs).redirects = bs.flatMap fun b => b.2.redirects := by
  rw [redirects, redirectsOfBranches_eq]

theorem redirects_of_isLiteral {v : Value} (h : v.isLiteral = true) : v.redirects = [] := by
  cases v <;> first | rfl | cases h

mutual

/-- The redirects on which the type of a value depends: of a conditional value, those of the branch
that is tested first. -/
def followed : Value → List Redirect
  | redirect r => [r]
  | array items => followedInItems items
  | conditional branches => followedInFirst branches
  | _ => []

def followedInItems : List Value → List Redirect
  | [] => []
  | v :: vs => followed v ++ followedInItems vs

def followedInFirst : List (Condition × Value) → List Redirect
  | [] => []
  | (_, v) :: _ => followed v

end

theorem followedInItems_eq (vs : List Value) : followedInItems vs = vs.flatMap followed := by
  induction vs with
  | nil => rfl
  | cons v vs ih => rw [followedInItems, ih, List.flatMap_cons]

theorem followed_array (vs : List Value) : (array vs).followed = vs.flatMap followed := by
  rw [followed, followedInItems_eq]

theorem followed_of_isLiteral {v : Value} (h : v.isLiteral = true) : v.followed = [] := by
  cases v <;> first | rfl | cases h

/-- What the type depends on are redirects of the value. -/
theorem followed_subset_redirects (v : Value) : v.followed ⊆ v.redirects := by
  induction v using Value.induction with
  | literal v h => rw [followed_of_isLiteral h]; exact List.nil_subset _
  | redirect r => exact List.Subset.refl _
  | conditional bs ih =>
    rw [redirects_conditional]
    cases bs with
    | nil => exact List.Subset.refl _
    | cons b bs =>
      obtain ⟨c, v⟩ := b
      exact List.subset_append_of_subset_left _ (ih c v List.mem_cons_self)
  | array vs ih =>
    rw [followed_array, redirects_array]
    intro q hq
    obtain ⟨v, hv, hqv⟩ := List.mem_flatMap.1 hq
    exact List.mem_flatMap.2 ⟨v, hv, ih v hv hqv⟩

/-! ## Resolved redirects -/

mutual

/-- The value with its redirects as they are written. -/
def plain : Value → Value
  | redirect r => redirect ⟨r.path, none⟩
  | array items => array (plainItems items)
  | conditional branches => conditional (plainBranches branches)
  | v => v

def plainItems : List Value → List Value
  | [] => []
  | v :: vs => plain v :: plainItems vs

def plainBranches : List (Condition × Value) → List (Condition × Value)
  | [] => []
  | (c, v) :: bs => (c, plain v) :: plainBranches bs

end

theorem plainItems_eq (vs : List Value) : plainItems vs = vs.map plain := by
  induction vs with
  | nil => rfl
  | cons v vs ih => rw [plainItems, ih, List.map_cons]

theorem plainBranches_eq (bs : List (Condition × Value)) :
    plainBranches bs = bs.map fun b => (b.1, b.2.plain) := by
  induction bs with
  | nil => rfl
  | cons b bs ih => rw [plainBranches, ih, List.map_cons]

theorem plain_array (vs : List Value) : (array vs).plain = array (vs.map plain) := by
  rw [plain, plainItems_eq]

theorem plain_conditional (bs : List (Condition × Value)) :
    (conditional bs).plain = conditional (bs.map fun b => (b.1, b.2.plain)) := by
  rw [plain, plainBranches_eq]

theorem plain_of_isLiteral {v : Value} (h : v.isLiteral = true) : v.plain = v := by
  cases v <;> first | rfl | cases h

@[simp] theorem isLiteral_plain (v : Value) : v.plain.isLiteral = v.isLiteral := by
  cases v <;> rfl

section Forms

variable {v : Value}

theorem eq_redirect_of_plain {r : Redirect} (h : v.plain = (redirect r).plain) :
    ∃ q, v = redirect q ∧ q.path = r.path := by
  cases v <;> first | cases h | skip
  case redirect q => exact ⟨q, rfl, by simpa [plain] using h⟩

theorem eq_array_of_plain {vs : List Value} (h : v.plain = (array vs).plain) :
    ∃ us, v = array us ∧ us.map plain = vs.map plain := by
  cases v <;> first | cases h | skip
  case array us => exact ⟨us, rfl, by simpa [plain_array] using h⟩

theorem eq_conditional_of_plain {bs : List (Condition × Value)}
    (h : v.plain = (conditional bs).plain) :
    ∃ as, v = conditional as ∧
      as.map (fun b => (b.1, b.2.plain)) = bs.map fun b => (b.1, b.2.plain) := by
  cases v <;> first | cases h | skip
  case conditional as => exact ⟨as, rfl, by simpa [plain_conditional] using h⟩

end Forms

section Mapping

variable {ε : Type} {f : Redirect → Except ε Redirect}

/-- Items are changed one by one. -/
theorem mapRedirectsOfItems_ok {vs us : List Value} (h : mapRedirectsOfItems f vs = .ok us) :
    List.Forall₂ (fun v u => v.mapRedirects f = .ok u) vs us := by
  induction vs generalizing us with
  | nil =>
    cases h
    exact .nil
  | cons v vs ih =>
    rw [mapRedirectsOfItems] at h
    split at h
    · cases h
    · next u hu =>
      split at h
      · next us hus =>
        cases h
        exact .cons hu (ih hus)
      · cases h

/-- Branches are changed one by one, under the same conditions. -/
theorem mapRedirectsOfBranches_ok {bs as : List (Condition × Value)}
    (h : mapRedirectsOfBranches f bs = .ok as) :
    List.Forall₂ (fun b a => a.1 = b.1 ∧ b.2.mapRedirects f = .ok a.2) bs as := by
  induction bs generalizing as with
  | nil =>
    cases h
    exact .nil
  | cons b bs ih =>
    rw [mapRedirectsOfBranches] at h
    split at h
    · cases h
    · next u hu =>
      split at h
      · next as has =>
        cases h
        exact .cons ⟨rfl, hu⟩ (ih has)
      · cases h

theorem mapRedirects_of_isLiteral {v : Value} (h : v.isLiteral = true) :
    v.mapRedirects f = .ok v := by
  cases v <;> first | rfl | cases h

/-- A redirect is changed to a redirect. -/
theorem mapRedirects_redirect_ok {r : Redirect} {u : Value}
    (h : (redirect r).mapRedirects f = .ok u) : ∃ q, f r = .ok q ∧ u = redirect q := by
  rw [mapRedirects] at h
  split at h
  · next q hq =>
    cases h
    exact ⟨q, hq, rfl⟩
  · cases h

/-- An array is changed to one with the changed items. -/
theorem mapRedirects_array_ok {vs : List Value} {u : Value}
    (h : (array vs).mapRedirects f = .ok u) :
    ∃ us, u = array us ∧ List.Forall₂ (fun v u => v.mapRedirects f = .ok u) vs us := by
  rw [mapRedirects] at h
  split at h
  · next us hus =>
    cases h
    exact ⟨us, rfl, mapRedirectsOfItems_ok hus⟩
  · cases h

/-- A conditional value is changed to one with the changed branches. -/
theorem mapRedirects_conditional_ok {bs : List (Condition × Value)} {u : Value}
    (h : (conditional bs).mapRedirects f = .ok u) :
    ∃ as, u = conditional as ∧
      List.Forall₂ (fun b a => a.1 = b.1 ∧ b.2.mapRedirects f = .ok a.2) bs as := by
  rw [mapRedirects] at h
  split at h
  · next as has =>
    cases h
    exact ⟨as, rfl, mapRedirectsOfBranches_ok has⟩
  · cases h

/-- Resolving redirects leaves the rest of a value as it is. -/
theorem plain_mapRedirects (hf : ∀ r q, f r = .ok q → q.path = r.path) {v u : Value}
    (h : v.mapRedirects f = .ok u) : u.plain = v.plain := by
  induction v using Value.induction generalizing u with
  | literal v hv =>
    rw [mapRedirects_of_isLiteral hv] at h
    cases h
    rfl
  | redirect r =>
    obtain ⟨q, hq, rfl⟩ := mapRedirects_redirect_ok h
    rw [plain, plain, hf r q hq]
  | conditional bs ih =>
    obtain ⟨as, rfl, has⟩ := mapRedirects_conditional_ok h
    rw [plain_conditional, plain_conditional]
    refine congrArg conditional ?_
    clear h
    induction has with
    | nil => rfl
    | @cons b a bs as hab _ ihrest =>
      rw [List.map_cons, List.map_cons, hab.1, ih b.1 b.2 List.mem_cons_self hab.2,
        ihrest fun c v hv => ih c v (List.mem_cons_of_mem _ hv)]
  | array vs ih =>
    obtain ⟨us, rfl, hus⟩ := mapRedirects_array_ok h
    rw [plain_array, plain_array]
    refine congrArg array ?_
    clear h
    induction hus with
    | nil => rfl
    | cons huv _ ihrest =>
      rw [List.map_cons, List.map_cons, ih _ List.mem_cons_self huv,
        ihrest fun v hv => ih v (List.mem_cons_of_mem _ hv)]

/-- What a value redirects to is seen without what is resolved of it. -/
@[simp] theorem redirectPath?_plain (v : Value) : v.plain.redirectPath? = v.redirectPath? := by
  cases v <;> simp [plain, redirectPath?]

/-- A resolved value redirects to what it did before, if it is a redirect. -/
theorem redirectPath?_mapRedirects (hf : ∀ r q, f r = .ok q → q.path = r.path) {v u : Value}
    (h : v.mapRedirects f = .ok u) : u.redirectPath? = v.redirectPath? := by
  rw [← redirectPath?_plain u, plain_mapRedirects hf h, redirectPath?_plain]

/-- Every redirect of a resolved value was resolved. -/
theorem exists_of_mem_redirects {v u : Value} (h : v.mapRedirects f = .ok u) {q : Redirect}
    (hq : q ∈ u.redirects) : ∃ r ∈ v.redirects, f r = .ok q := by
  induction v using Value.induction generalizing u with
  | literal v hv =>
    rw [mapRedirects_of_isLiteral hv] at h
    cases h
    rw [redirects_of_isLiteral hv] at hq
    cases hq
  | redirect r =>
    obtain ⟨q', hq', rfl⟩ := mapRedirects_redirect_ok h
    rw [List.mem_singleton.1 hq]
    exact ⟨r, List.mem_singleton_self r, hq'⟩
  | conditional bs ih =>
    obtain ⟨as, rfl, has⟩ := mapRedirects_conditional_ok h
    rw [redirects_conditional] at hq ⊢
    obtain ⟨a, ha, hqa⟩ := List.mem_flatMap.1 hq
    obtain ⟨b, hb, hab⟩ := exists_mem_of_forall₂ has ha
    obtain ⟨r, hr, hrq⟩ := ih b.1 b.2 hb hab.2 hqa
    exact ⟨r, List.mem_flatMap.2 ⟨b, hb, hr⟩, hrq⟩
  | array vs ih =>
    obtain ⟨us, rfl, hus⟩ := mapRedirects_array_ok h
    rw [redirects_array] at hq ⊢
    obtain ⟨u, hu, hqu⟩ := List.mem_flatMap.1 hq
    obtain ⟨v, hv, huv⟩ := exists_mem_of_forall₂ hus hu
    obtain ⟨r, hr, hrq⟩ := ih v hv huv hqu
    exact ⟨r, List.mem_flatMap.2 ⟨v, hv, hr⟩, hrq⟩

/-- If items cannot be changed, one of them cannot. -/
theorem exists_of_mapRedirectsOfItems_eq_error {vs : List Value} {e : ε}
    (h : mapRedirectsOfItems f vs = .error e) : ∃ v ∈ vs, v.mapRedirects f = .error e := by
  induction vs with
  | nil => cases h
  | cons v vs ih =>
    rw [mapRedirectsOfItems] at h
    split at h
    · next hv =>
      cases h
      exact ⟨v, List.mem_cons_self, hv⟩
    · split at h
      · cases h
      · next hvs =>
        cases h
        obtain ⟨u, hu, hue⟩ := ih hvs
        exact ⟨u, List.mem_cons_of_mem v hu, hue⟩

/-- If branches cannot be changed, one of them cannot. -/
theorem exists_of_mapRedirectsOfBranches_eq_error {bs : List (Condition × Value)} {e : ε}
    (h : mapRedirectsOfBranches f bs = .error e) : ∃ b ∈ bs, b.2.mapRedirects f = .error e := by
  induction bs with
  | nil => cases h
  | cons b bs ih =>
    rw [mapRedirectsOfBranches] at h
    split at h
    · next hb =>
      cases h
      exact ⟨b, List.mem_cons_self, hb⟩
    · split at h
      · cases h
      · next hbs =>
        cases h
        obtain ⟨c, hc, hce⟩ := ih hbs
        exact ⟨c, List.mem_cons_of_mem b hc, hce⟩

/-- Resolving the redirects of a value fails where it fails for one of them. -/
theorem exists_of_mapRedirects_eq_error {v : Value} {e : ε} (h : v.mapRedirects f = .error e) :
    ∃ r ∈ v.redirects, f r = .error e := by
  induction v using Value.induction with
  | literal v hv =>
    rw [mapRedirects_of_isLiteral hv] at h
    cases h
  | redirect r =>
    rw [mapRedirects] at h
    split at h
    · cases h
    · next hr =>
      cases h
      exact ⟨r, List.mem_singleton_self r, hr⟩
  | conditional bs ih =>
    rw [mapRedirects] at h
    split at h
    · cases h
    · next hbs =>
      cases h
      obtain ⟨b, hb, hbe⟩ := exists_of_mapRedirectsOfBranches_eq_error hbs
      obtain ⟨r, hr, hre⟩ := ih b.1 b.2 hb hbe
      rw [redirects_conditional]
      exact ⟨r, List.mem_flatMap.2 ⟨b, hb, hr⟩, hre⟩
  | array vs ih =>
    rw [mapRedirects] at h
    split at h
    · cases h
    · next hvs =>
      cases h
      obtain ⟨v, hv, hve⟩ := exists_of_mapRedirectsOfItems_eq_error hvs
      obtain ⟨r, hr, hre⟩ := ih v hv hve
      rw [redirects_array]
      exact ⟨r, List.mem_flatMap.2 ⟨v, hv, hr⟩, hre⟩

end Mapping

end Appearance.Value
