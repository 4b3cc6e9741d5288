import Appearance.FileTree
import Mathlib.Data.List.Count
import Mathlib.Data.List.Nodup

/-!
# Trees that grow

Writing into a tree adds directories and files and replaces files. `FileTree.Grows` says what stays:
a directory stays one, a file keeps its content unless it was written, and only written files are
new. So a path leads to the same place afterwards (`FileTree.Grows.locate`), and a file that was not
written reads the same (`FileTree.Grows.read`).

`FileTree.exists_place_of_writeIfChanged` says what one write does, and
`FileTree.writeIfChanged_eq_unchanged_iff` when it does nothing.

Growth is an order on trees, relative to the places that were written: it is reflexive, transitive
and monotone in them, and one write is a step of it. So what a whole run does to a tree is a single
`Grows`, whatever number of files it writes. That no place has two entries is kept by every write,
and it is needed to say that the number of entries does not fall.
-/

namespace Appearance.FileTree

variable {t u v : FileTree} {place : Place} {entry : FileEntry}

/-! ## Entries -/

/-- No place has two entries. -/
def Distinct (t : FileTree) : Prop := (t.entries.map Prod.fst).Nodup

instance (t : FileTree) : Decidable t.Distinct :=
  inferInstanceAs (Decidable (t.entries.map Prod.fst).Nodup)

/-- Taking one place away leaves all others. -/
theorem lookup_filter_ne {q : Place} (hq : q ≠ place) (entries : List (Place × FileEntry)) :
    (entries.filter (·.1 != place)).lookup q = entries.lookup q := by
  induction entries with
  | nil => rfl
  | cons e entries ih =>
    obtain ⟨p, x⟩ := e
    by_cases hp : p = place
    · subst hp
      rw [List.filter_cons_of_neg (by simp), ih, List.lookup_cons,
        beq_eq_false_iff_ne.2 hq]
    · rw [List.filter_cons_of_pos (by simpa using hp), List.lookup_cons, List.lookup_cons, ih]

/-- A place that is written has the entry, and all others have what they had. -/
theorem find?_put (hroot : isRoot place = false) (q : Place) :
    (t.put place entry).find? q = if q = place then some entry else t.find? q := by
  by_cases hq : q = place
  · subst hq
    rw [find?, hroot, if_neg nofun, if_pos rfl, put, List.lookup_cons, beq_self_eq_true]
  · rw [if_neg hq, find?, find?, put, List.lookup_cons, beq_eq_false_iff_ne.2 hq,
      lookup_filter_ne hq]

theorem isRoot_of_find?_ne (h : t.find? place ≠ some .directory) : isRoot place = false := by
  rw [Bool.eq_false_iff]
  intro hroot
  exact h (if_pos hroot)

/-- A tree with one entry for each place stays so. -/
theorem Distinct.put (h : t.Distinct) : (t.put place entry).Distinct := by
  have hfilter : ((t.entries.filter (·.1 != place)).map Prod.fst).Nodup :=
    List.Nodup.sublist (List.filter_sublist.map _) h
  refine List.nodup_cons.2 ⟨fun hmem => ?_, hfilter⟩
  obtain ⟨e, he, heq⟩ := List.mem_map.1 hmem
  have hne := (List.mem_filter.1 he).2
  rw [heq, bne_self_eq_false] at hne
  cases hne

/-- Writing makes no tree smaller. -/
theorem Distinct.size_le_put (h : t.Distinct) : t.size ≤ (t.put place entry).size := by
  have hone : (t.entries.filter fun e => !(e.1 != place)).length ≤ 1 := by
    have hcount := List.nodup_iff_count_le_one.1 h place
    rw [List.count_eq_countP, List.countP_map, List.countP_eq_length_filter] at hcount
    have hsame : (fun e : Place × FileEntry => !(e.1 != place)) = (· == place) ∘ Prod.fst := by
      funext e
      simp [bne]
    rwa [hsame]
  have hsplit := List.length_eq_length_filter_add (l := t.entries) (·.1 != place)
  have hput : (t.put place entry).size = (t.entries.filter (·.1 != place)).length + 1 := rfl
  have hsize : t.size = t.entries.length := rfl
  omega

/-! ## Growing -/

/-- Directories stay, files stay, and outside the given places files keep their content and no new
ones appear. -/
structure Grows (written : Place → Prop) (t u : FileTree) : Prop where
  directory : ∀ q, t.find? q = some .directory → u.find? q = some .directory
  file : ∀ q content, t.find? q = some (.file content) →
    ∃ content', u.find? q = some (.file content') ∧ (¬ written q → content' = content)
  created : ∀ q content, u.find? q = some (.file content) → ¬ written q →
    t.find? q = some (.file content)
  distinct : t.Distinct → u.Distinct
  size_le : t.Distinct → t.size ≤ u.size

section Grows

variable {written written' : Place → Prop}

theorem Grows.refl (t : FileTree) : Grows written t t where
  directory _ h := h
  file _ content h := ⟨content, h, fun _ => rfl⟩
  created _ _ h _ := h
  distinct h := h
  size_le _ := Nat.le_refl _

/-- Growth goes on. -/
theorem Grows.trans (h : Grows written t u) (h' : Grows written u v) : Grows written t v where
  directory q hq := h'.directory q (h.directory q hq)
  file q content hq := by
    obtain ⟨content₁, hu, hsame⟩ := h.file q content hq
    obtain ⟨content₂, hv, hsame'⟩ := h'.file q content₁ hu
    exact ⟨content₂, hv, fun hq => (hsame' hq).trans (hsame hq)⟩
  created q content hq hnot := h.created q content (h'.created q content hq hnot) hnot
  distinct ht := h'.distinct (h.distinct ht)
  size_le ht := Nat.le_trans (h.size_le ht) (h'.size_le (h.distinct ht))

/-- More places may be said to be written than were. -/
theorem Grows.mono (h : Grows written t u) (hsub : ∀ q, written q → written' q) :
    Grows written' t u where
  directory := h.directory
  file q content hq := by
    obtain ⟨content', hu, hsame⟩ := h.file q content hq
    exact ⟨content', hu, fun hnot => hsame fun hq => hnot (hsub q hq)⟩
  created q content hq hnot := h.created q content hq fun hq => hnot (hsub q hq)
  distinct := h.distinct
  size_le := h.size_le

/-- A path leads to the same place in a tree that has grown. -/
theorem Grows.walk (h : Grows written t u) {parts : List String} {start : Place}
    (hwalk : t.walk start parts = .ok place) : u.walk start parts = .ok place := by
  induction parts generalizing start with
  | nil => exact hwalk
  | cons part rest ih =>
    rw [FileTree.walk] at hwalk ⊢
    split at hwalk
    · next hdirectory =>
      rw [h.directory _ hdirectory]
      exact ih hwalk
    · cases hwalk
    · cases hwalk

/-- A path leads to the same place afterwards. -/
theorem Grows.locate (h : Grows written t u) {path : String} (hlocate : t.locate path = .ok place) :
    u.locate path = .ok place := by
  unfold FileTree.locate at hlocate ⊢
  split at hlocate
  · cases hlocate
  · next hpath =>
    rw [if_neg hpath]
    exact h.walk hlocate

/-- What was there is there afterwards. -/
theorem Grows.has (h : Grows written t u) {path : String} (hhas : t.has path = true) :
    u.has path = true := by
  unfold FileTree.has at hhas ⊢
  split at hhas
  · next place hplace =>
    rw [h.locate hplace]
    obtain ⟨entry, hentry⟩ := Option.isSome_iff_exists.1 hhas
    cases entry with
    | directory => simp [h.directory place hentry]
    | file content =>
      obtain ⟨content', hu, -⟩ := h.file place content hentry
      simp [hu]
  · cases hhas

end Grows

/-- What can be read stands as a file at its place. -/
theorem read_eq_ok_iff {path content : String} :
    t.read path = .ok content ↔
      ∃ place, t.locate path = .ok place ∧ t.find? place = some (.file content) := by
  unfold read
  constructor
  · intro h
    split at h
    · cases h
    · next place hplace =>
      split at h
      · next hcontent =>
        cases h
        exact ⟨place, hplace, hcontent⟩
      · cases h
      · cases h
  · rintro ⟨place, hplace, hcontent⟩
    rw [hplace]
    dsimp only
    rw [hcontent]

/-- A file that was not written reads the same in a tree that has grown. -/
theorem Grows.read {written : Place → Prop} (h : Grows written t u) {path content : String}
    (hread : t.read path = .ok content)
    (hplace : ∀ place, t.locate path = .ok place → ¬ written place) :
    u.read path = .ok content := by
  obtain ⟨place, hlocate, hcontent⟩ := read_eq_ok_iff.1 hread
  obtain ⟨content', hu, hsame⟩ := h.file place content hcontent
  rw [hsame (hplace place hlocate)] at hu
  exact read_eq_ok_iff.2 ⟨place, h.locate hlocate, hu⟩

/-! ## Writing -/

/-- Where no directory is an entry can be put: a directory where nothing is, and a file at a place
that is written. -/
theorem grows_put {written : Place → Prop} (hdirectory : t.find? place ≠ some .directory)
    (hentry : t.find? place = none ∧ entry = .directory ∨
      written place ∧ ∃ content, entry = .file content) :
    Grows written t (t.put place entry) where
  directory q hq := by
    rw [find?_put (isRoot_of_find?_ne hdirectory), if_neg, hq]
    rintro rfl
    exact hdirectory hq
  file q content hq := by
    rw [find?_put (isRoot_of_find?_ne hdirectory)]
    by_cases hplace : q = place
    · subst hplace
      obtain ⟨hnone, -⟩ | ⟨hwritten, content', rfl⟩ := hentry
      · rw [hnone] at hq
        cases hq
      · exact ⟨content', if_pos rfl, fun hnot => absurd hwritten hnot⟩
    · exact ⟨content, by rw [if_neg hplace, hq], fun _ => rfl⟩
  created q content hq hnot := by
    rw [find?_put (isRoot_of_find?_ne hdirectory)] at hq
    by_cases hplace : q = place
    · subst hplace
      obtain ⟨-, rfl⟩ | ⟨hwritten, -⟩ := hentry
      · rw [if_pos rfl] at hq
        cases hq
      · exact absurd hwritten hnot
    · rwa [if_neg hplace] at hq
  distinct := Distinct.put
  size_le := Distinct.size_le_put

/-- Making directories writes no file. -/
theorem grows_walkMaking {parts : List String} {start : Place}
    (h : t.walkMaking start parts = .ok u) : Grows (fun _ => False) t u := by
  induction parts generalizing t start with
  | nil =>
    cases h
    exact .refl _
  | cons part rest ih =>
    unfold walkMaking at h
    dsimp only at h
    split at h
    · exact ih h
    · cases h
    · next hnone => exact (grows_put (by rw [hnone]; nofun) (.inl ⟨hnone, rfl⟩)).trans (ih h)

/-- A write puts the content to the place of its path, and only there. -/
theorem exists_place_of_writeMaking {path content : String}
    (h : t.writeMaking path content = .ok u) :
    ∃ place, u.locate path = .ok place ∧ u.find? place = some (.file content) ∧
      Grows (· = place) t u := by
  unfold writeMaking at h
  split at h
  · cases h
  · next v hv =>
    unfold write at h
    split at h
    · cases h
    · next place hplace =>
      split at h
      · cases h
      · next hdirectory =>
        cases h
        have hmade : Grows (· = place) t v := (grows_walkMaking hv).mono fun _ => False.elim
        have hput : Grows (· = place) v (v.put place (.file content)) :=
          grows_put hdirectory (.inr ⟨rfl, content, rfl⟩)
        refine ⟨place, hput.locate hplace, ?_, hmade.trans hput⟩
        rw [find?_put (isRoot_of_find?_ne hdirectory), if_pos rfl]

/-- After a write the file stands at its place, and nothing else has changed but for directories
that were made. -/
theorem exists_place_of_writeIfChanged {path content : String} {outcome : WriteOutcome}
    (h : t.writeIfChanged path content = .ok (outcome, u)) :
    ∃ place, u.locate path = .ok place ∧ u.find? place = some (.file content) ∧
      Grows (· = place) t u := by
  have hmap : ∀ {x : Except FileTrouble FileTree}, x = t.writeMaking path content →
      x.map (fun t => (WriteOutcome.written, t)) = .ok (outcome, u) →
      ∃ place, u.locate path = .ok place ∧ u.find? place = some (.file content) ∧
        Grows (· = place) t u := by
    intro x hx hmap
    cases x with
    | error e => cases hmap
    | ok v =>
      cases hmap
      exact exists_place_of_writeMaking hx.symm
  unfold writeIfChanged at h
  split at h
  · next present hread =>
    split at h
    · next hsame =>
      cases h
      obtain ⟨place, hlocate, hfile⟩ := read_eq_ok_iff.1 hread
      exact ⟨place, hlocate, hsame ▸ hfile, .refl t⟩
    · exact hmap rfl h
  · exact hmap rfl h
  · cases h

/-- A write leaves the tree alone exactly if the file has the content already. -/
theorem writeIfChanged_eq_unchanged_iff {path content : String} :
    t.writeIfChanged path content = .ok (.unchanged, u) ↔ t.read path = .ok content ∧ u = t := by
  constructor
  · intro h
    have hmap : ∀ {x : Except FileTrouble FileTree},
        x.map (fun t => (WriteOutcome.written, t)) ≠ .ok (.unchanged, u) := by
      intro x hx
      cases x <;> cases hx
    unfold writeIfChanged at h
    split at h
    · next present hread =>
      split at h
      · next hsame =>
        cases h
        exact ⟨hsame ▸ hread, rfl⟩
      · exact absurd h hmap
    · exact absurd h hmap
    · cases h
  · rintro ⟨hread, rfl⟩
    rw [writeIfChanged, hread]
    exact if_pos rfl

end Appearance.FileTree
