import Mathlib.Data.List.Nodup
import WarmCompile.Project.Document
import WarmCompile.Proofs.Except
import WarmCompile.Proofs.Path.Fold

/-!
What can stand in a project document, and how paths are gathered without repetition.
-/

namespace WarmCompile

namespace Document

/-- Every path in a document is a name resolved in the directory of its project. -/
def Resolved (dir : String) (d : Document) : Prop :=
  ∀ path ∈ d.compileItems ++ d.references, ∃ name, path = Path.resolve dir name

theorem resolved_apply {dir : String} {d : Document} (hd : d.Resolved dir) (property : Property)
    (value : List Char) : (d.apply property value).Resolved dir := by
  cases property with
  | _ => exact hd

theorem resolved_opened {dir : String} {s s' : Reading} {tag : List Char}
    (hs : s.document.Resolved dir) (h : s.opened dir tag = .ok s') : s'.document.Resolved dir := by
  unfold Reading.opened at h
  dsimp only at h
  split at h
  · rename_i item _
    obtain ⟨name, -, h⟩ := bind_eq_ok.1 h
    cases item with
    | compile =>
      cases h
      intro path hpath
      simp only [List.append_assoc, List.mem_append, List.mem_singleton] at hpath
      rcases hpath with hpath | rfl | hpath
      · exact hs path (List.mem_append_left _ hpath)
      · exact ⟨name, rfl⟩
      · exact hs path (List.mem_append_right _ hpath)
    | reference =>
      cases h
      intro path hpath
      simp only [List.mem_append, List.mem_singleton] at hpath
      rcases hpath with hpath | hpath | rfl
      · exact hs path (List.mem_append_left _ hpath)
      · exact hs path (List.mem_append_right _ hpath)
      · exact ⟨name, rfl⟩
  · split at h <;> (cases h; exact hs)

theorem resolved_step {dir : String} {s s' : Reading} {e : Markup.Event}
    (hs : s.document.Resolved dir) (h : s.step dir e = .ok s') : s'.document.Resolved dir := by
  cases e with
  | opening tag => exact resolved_opened hs h
  | empty tag => exact resolved_opened hs h
  | text cs =>
    cases h
    exact hs
  | reference name =>
    simp only [Reading.step, Reading.referred] at h
    split at h
    · cases h
      exact hs
    · split at h
      · cases h
      · cases h
      · cases h
        exact hs
  | closing name =>
    cases h
    unfold Reading.closed
    split
    · split
      · exact resolved_apply hs _ _
      · exact hs
    · exact hs
  | aside =>
    cases h
    exact hs

theorem resolved_run {dir : String} {s s' : Reading} {es : List Markup.Event}
    (hs : s.document.Resolved dir) (h : Reading.run dir s es = .ok s') :
    s'.document.Resolved dir := by
  induction es generalizing s with
  | nil =>
    cases h
    exact hs
  | cons e es ih =>
    obtain ⟨s₁, hstep, h⟩ := bind_eq_ok.1 h
    exact ih (resolved_step hs hstep) h

theorem resolved_parse {text dir : String} {d : Document} (h : parse text dir = .ok d) :
    d.Resolved dir := by
  obtain ⟨s, hrun, h⟩ := bind_eq_ok.1 h
  have hempty : empty.Resolved dir := fun _ hpath => nomatch hpath
  have hs := resolved_run hempty hrun
  split at h
  · cases h
  · cases h
    exact hs

/-- The paths in a project document are folded. -/
theorem folded_of_parse {text dir : String} {d : Document} (hdir : '\\' ∉ dir.toList)
    (h : parse text dir = .ok d) : ∀ path ∈ d.compileItems ++ d.references, Path.Folded path := by
  intro path hpath
  obtain ⟨name, rfl⟩ := resolved_parse h path hpath
  exact Path.folded_resolve hdir name

/-! ### Gathering -/

theorem mem_addNew {known paths : List String} {path : String} :
    path ∈ addNew known paths ↔ path ∈ known ∨ path ∈ paths := by
  induction paths generalizing known with
  | nil => simp [addNew]
  | cons p paths ih =>
    rw [addNew, ih, List.mem_cons, ← or_assoc]
    refine or_congr_left ?_
    split
    · rename_i hp
      exact ⟨.inl, fun h => h.elim id fun heq => heq ▸ hp⟩
    · rw [List.mem_append, List.mem_singleton]

theorem nodup_addNew {known paths : List String} (h : known.Nodup) :
    (addNew known paths).Nodup := by
  induction paths generalizing known with
  | nil => exact h
  | cons p paths ih =>
    rw [addNew]
    split
    · exact ih h
    · rename_i hp
      refine ih (List.nodup_append.2 ⟨h, List.nodup_singleton p, ?_⟩)
      intro a ha b hb
      obtain rfl := List.mem_singleton.1 hb
      exact fun hab => hp (hab ▸ ha)

theorem addNew_append (known paths more : List String) :
    addNew known (paths ++ more) = addNew (addNew known paths) more := by
  induction paths generalizing known with
  | nil => rfl
  | cons p paths ih => exact ih _

theorem addNew_eq_append (known paths : List String) :
    addNew known paths = known ++ (paths.removeAll known).eraseDups := by
  induction paths generalizing known with
  | nil => simp [addNew]
  | cons p paths ih =>
    rw [addNew]
    by_cases hp : p ∈ known
    · have hrest : (p :: paths).removeAll known = paths.removeAll known := by
        simp [List.removeAll, hp]
      rw [if_pos hp, ih, hrest]
    · have hrest : (p :: paths).removeAll known = p :: paths.removeAll known := by
        simp [List.removeAll, hp]
      have hmore : paths.removeAll (known ++ [p]) =
          (paths.removeAll known).filter (fun q => !q == p) := by
        simp only [List.removeAll, List.filter_filter]
        refine List.filter_congr fun q _ => ?_
        by_cases hq : q = p
        · simp [hq]
        · simp [hq]
      rw [if_neg hp, ih, hrest, hmore, List.eraseDups_cons, List.append_assoc]
      rfl

theorem addNew_nil (paths : List String) : addNew [] paths = paths.eraseDups := by
  rw [addNew_eq_append, List.nil_append]
  congr 1
  exact List.filter_eq_self.2 fun p _ => rfl

theorem addNew_addNew (xs ys zs : List String) :
    addNew xs (addNew ys zs) = addNew (addNew xs ys) zs := by
  induction zs generalizing ys with
  | nil => rfl
  | cons z zs ih =>
    rw [addNew, addNew, ih]
    split
    · rename_i hz
      rw [if_pos (mem_addNew.2 (.inr hz))]
    · rw [addNew_append]
      rfl

/-- Names without repetitions are added as far as they are new. -/
theorem addNew_of_nodup {known paths : List String} (h : paths.Nodup) :
    addNew known paths = known ++ paths.filter (· ∉ known) := by
  induction paths generalizing known with
  | nil => simp [addNew]
  | cons p paths ih =>
    obtain ⟨hp, hpaths⟩ := List.nodup_cons.1 h
    rw [addNew, ih hpaths]
    by_cases hknown : p ∈ known
    · simp [hknown]
    · have hsame : paths.filter (· ∉ known ++ [p]) = paths.filter (· ∉ known) := by
        refine List.filter_congr fun q hq => ?_
        have hne : q ≠ p := fun heq => hp (heq ▸ hq)
        simp [hne]
      rw [if_neg hknown, hsame, List.append_assoc, List.filter_cons_of_pos (by simpa using hknown)]
      rfl

end Document

end WarmCompile
