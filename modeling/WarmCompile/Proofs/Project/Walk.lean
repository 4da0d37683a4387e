import Mathlib.Data.Finset.Card
import Mathlib.Data.Finset.Dedup
import Mathlib.Logic.Relation
import WarmCompile.Project.Walk
import WarmCompile.Proofs.Project.Document

/-!
The walk from project to project: what it has visited and gathered when it is past a list of
references, whatever the references are like.
-/

namespace WarmCompile

namespace Disk

theorem mem_of_isFile {files : List (String × String)} {p : String}
    (h : (ofFiles files).isFile p = true) : p ∈ files.map (·.1) := by
  obtain ⟨x, hx, heq⟩ := List.lookup_isSome_iff.1 h
  exact List.mem_map.2 ⟨x, hx, (eq_of_beq heq).symm⟩

/-- There is a project at a path, with this content. -/
structure IsProject (disk : Disk) (path : String) (d : Document) : Prop where
  isFile : disk.isFile path = true
  parsed : ∃ text, disk.read path = .ok text ∧ Document.parse text (Path.parent path) = .ok d

def Refers (disk : Disk) (p q : String) : Prop :=
  ∃ d, disk.IsProject p d ∧ q ∈ d.references

/-- One project leads to another, over any number of references. -/
def Reaches (disk : Disk) : String → String → Prop :=
  Relation.ReflTransGen disk.Refers

theorem IsProject.folded {disk : Disk} {path : String} {d : Document}
    (h : disk.IsProject path d) (hback : '\\' ∉ path.toList) :
    ∀ p ∈ d.compileItems ++ d.references, Path.Folded p := by
  obtain ⟨text, -, hparse⟩ := h.parsed
  exact Document.folded_of_parse (Path.not_mem_parent hback) hparse

end Disk

namespace Walk

variable {disk : Disk} {rs : List String} {w w' : Walk} {d : Document} {r : String}

theorem open_eq_ok : open? disk r = .ok d ↔ disk.IsProject r d := by
  constructor
  · intro h
    unfold open? at h
    split at h
    · cases h
    · rename_i hfile
      split at h
      · cases h
      · rename_i text hread
        split at h
        · cases h
        · rename_i d' hparse
          cases h
          exact ⟨by simpa using hfile, text, hread, hparse⟩
  · rintro ⟨hfile, text, hread, hparse⟩
    simp only [open?, hfile, hread, hparse]
    rfl

/-- The walk with one more project begun. -/
def enter (w : Walk) (r : String) : Walk :=
  { w with visited := r :: w.visited, references := w.references ++ [r] }

/-- The walk with a project done. -/
def leave (w : Walk) (d : Document) : Walk :=
  { w with sources := Document.addNew w.sources d.compileItems }

/-- The walk gets past a list of references. -/
inductive Follows (disk : Disk) : List String → Walk → Walk → Prop where
  | done (w : Walk) : Follows disk [] w w
  | skip {r : String} {rs : List String} {w w' : Walk} (hseen : r ∈ w.visited)
    (hrest : Follows disk rs w w') : Follows disk (r :: rs) w w'
  | visit {r : String} {rs : List String} {w w₁ w' : Walk} {d : Document} (hnew : r ∉ w.visited)
    (hproject : disk.IsProject r d) (hinner : Follows disk d.references (w.enter r) w₁)
    (hrest : Follows disk rs (w₁.leave d) w') : Follows disk (r :: rs) w w'

/-! ### The walk as it is run -/

theorem visit_eq_ok {n : Nat} : visit disk (n + 1) r w = .ok (d, w') ↔
    disk.IsProject (Path.forward r) d ∧ ∃ w₁, follow (visit disk n) d.references
      { w with visited := Path.forward r :: w.visited } = .ok w₁ ∧ w' = w₁.leave d := by
  rw [visit, bind_eq_ok]
  constructor
  · rintro ⟨d', hopen, h⟩
    obtain ⟨w₁, hfollow, h⟩ := bind_eq_ok.1 h
    cases h
    exact ⟨open_eq_ok.1 hopen, w₁, hfollow, rfl⟩
  · rintro ⟨hproject, w₁, hfollow, rfl⟩
    exact ⟨d, open_eq_ok.2 hproject, bind_eq_ok.2 ⟨w₁, hfollow, rfl⟩⟩

theorem follows_of_visits {visit : String → Walk → Except CompileError (Document × Walk)}
    (hvisit : ∀ r w d w₂, Path.Folded r → visit r w = .ok (d, w₂) → disk.IsProject r d ∧
      ∃ w₁, Follows disk d.references { w with visited := r :: w.visited } w₁ ∧ w₂ = w₁.leave d)
    (hrs : ∀ r ∈ rs, Path.Folded r) (h : follow visit rs w = .ok w') : Follows disk rs w w' := by
  induction rs generalizing w with
  | nil =>
    cases h
    exact .done _
  | cons r rs ih =>
    have hrest := fun r' hr' => hrs r' (List.mem_cons_of_mem r hr')
    rw [follow] at h
    split at h
    · rename_i hseen
      exact .skip hseen (ih hrest h)
    · rename_i hnew
      obtain ⟨⟨d, w₂⟩, hentered, h⟩ := bind_eq_ok.1 h
      obtain ⟨hproject, w₁, hinner, rfl⟩ := hvisit r _ d w₂ (hrs r List.mem_cons_self) hentered
      exact .visit hnew hproject hinner (ih hrest h)

theorem follows_of_follow {n : Nat} (hrs : ∀ r ∈ rs, Path.Folded r)
    (h : follow (visit disk n) rs w = .ok w') : Follows disk rs w w' := by
  induction n generalizing rs w w' with
  | zero =>
    refine follows_of_visits (fun r w d w₂ hr hvisit => ?_) hrs h
    cases hvisit
  | succ n ih =>
    refine follows_of_visits (fun r w d w₂ hr hvisit => ?_) hrs h
    obtain ⟨hproject, w₁, hfollow, hw⟩ := visit_eq_ok.1 hvisit
    rw [Path.forward_of_not_mem hr.not_mem] at hproject hfollow
    have hfolded := hproject.folded hr.not_mem
    exact ⟨hproject, w₁, ih (fun q hq => hfolded q (List.mem_append_right _ hq)) hfollow, hw⟩

/-! ### What a walk has done -/

namespace Follows

theorem visited_subset (h : Follows disk rs w w') : w.visited ⊆ w'.visited := by
  induction h with
  | done w => exact List.Subset.refl _
  | skip hseen hrest ih => exact ih
  | visit hnew hproject hinner hrest ihinner ihrest =>
    exact fun p hp => ihrest (ihinner (List.mem_cons_of_mem _ hp))

theorem sources_subset (h : Follows disk rs w w') : w.sources ⊆ w'.sources := by
  induction h with
  | done w => exact List.Subset.refl _
  | skip hseen hrest ih => exact ih
  | visit hnew hproject hinner hrest ihinner ihrest =>
    exact fun f hf => ihrest (Document.mem_addNew.2 (.inl (ihinner hf)))

theorem subset_visited (h : Follows disk rs w w') : rs ⊆ w'.visited := by
  induction h with
  | done w => exact List.nil_subset _
  | skip hseen hrest ih => exact List.cons_subset.2 ⟨hrest.visited_subset hseen, ih⟩
  | visit hnew hproject hinner hrest ihinner ihrest =>
    have hr := hinner.visited_subset List.mem_cons_self
    exact List.cons_subset.2 ⟨hrest.visited_subset hr, ihrest⟩

/-- What is visited on the way is done with in the end: all that it names has been gathered. -/
theorem closed (h : Follows disk rs w w') {p : String} (hp : p ∈ w'.visited)
    (hnew : p ∉ w.visited) : ∃ d, disk.IsProject p d ∧ d.references ⊆ w'.visited ∧
      d.compileItems ⊆ w'.sources := by
  induction h with
  | done w => exact absurd hp hnew
  | skip hseen hrest ih => exact ih hp hnew
  | @visit r rs w w₁ w' d hunseen hproject hinner hrest ihinner ihrest =>
    by_cases hp₁ : p ∈ w₁.visited
    · have hdone : ∃ d', disk.IsProject p d' ∧ d'.references ⊆ w₁.visited ∧
          d'.compileItems ⊆ (w₁.leave d).sources := by
        by_cases hpr : p = r
        · subst hpr
          exact ⟨d, hproject, hinner.subset_visited, fun f hf => Document.mem_addNew.2 (.inr hf)⟩
        · have hnot : p ∉ (w.enter r).visited := fun hp' =>
            (List.mem_cons.1 hp').elim hpr hnew
          obtain ⟨d', hd', hrefs, hitems⟩ := ihinner hp₁ hnot
          exact ⟨d', hd', hrefs, fun f hf => Document.mem_addNew.2 (.inl (hitems hf))⟩
      obtain ⟨d', hd', hrefs, hitems⟩ := hdone
      exact ⟨d', hd', fun q hq => hrest.visited_subset (hrefs hq),
        fun f hf => hrest.sources_subset (hitems hf)⟩
    · exact ihrest hp hp₁

theorem reached (h : Follows disk rs w w') {p : String} (hp : p ∈ w'.visited) :
    p ∈ w.visited ∨ ∃ r ∈ rs, disk.Reaches r p := by
  induction h with
  | done w => exact .inl hp
  | skip hseen hrest ih =>
    obtain hp | ⟨r, hr, hreach⟩ := ih hp
    · exact .inl hp
    · exact .inr ⟨r, List.mem_cons_of_mem _ hr, hreach⟩
  | @visit r rs w w₁ w' d hunseen hproject hinner hrest ihinner ihrest =>
    obtain hp | ⟨q, hq, hreach⟩ := ihrest hp
    · obtain hp | ⟨q, hq, hreach⟩ := ihinner hp
      · rcases List.mem_cons.1 hp with rfl | hp
        · exact .inr ⟨p, List.mem_cons_self, .refl⟩
        · exact .inl hp
      · exact .inr ⟨r, List.mem_cons_self, .head ⟨d, hproject, hq⟩ hreach⟩
    · exact .inr ⟨q, List.mem_cons_of_mem _ hq, hreach⟩

/-- Every source gathered on the way belongs to a project visited on the way. -/
theorem gathered (h : Follows disk rs w w') {f : String} (hf : f ∈ w'.sources) :
    f ∈ w.sources ∨ ∃ p d, p ∈ w'.visited ∧ disk.IsProject p d ∧ f ∈ d.compileItems := by
  induction h with
  | done w => exact .inl hf
  | skip hseen hrest ih => exact ih hf
  | @visit r rs w w₁ w' d hunseen hproject hinner hrest ihinner ihrest =>
    obtain hf | hf := ihrest hf
    · obtain hf | hf := Document.mem_addNew.1 hf
      · obtain hf | ⟨p, d', hp, hd', hf⟩ := ihinner hf
        · exact .inl hf
        · exact .inr ⟨p, d', hrest.visited_subset hp, hd', hf⟩
      · have hr := hinner.visited_subset List.mem_cons_self
        exact .inr ⟨r, d, hrest.visited_subset hr, hproject, hf⟩
    · exact .inr hf

theorem nodup_visited (h : Follows disk rs w w') (hw : w.visited.Nodup) : w'.visited.Nodup := by
  induction h with
  | done w => exact hw
  | skip hseen hrest ih => exact ih hw
  | visit hnew hproject hinner hrest ihinner ihrest =>
    exact ihrest (ihinner (List.nodup_cons.2 ⟨hnew, hw⟩))

theorem nodup_sources (h : Follows disk rs w w') (hw : w.sources.Nodup) : w'.sources.Nodup := by
  induction h with
  | done w => exact hw
  | skip hseen hrest ih => exact ih hw
  | visit hnew hproject hinner hrest ihinner ihrest =>
    exact ihrest (Document.nodup_addNew (ihinner hw))

/-- A walk visits what it lists as a reference, and nothing else. -/
theorem visited_perm (h : Follows disk rs w w') (first : List String)
    (hw : w.visited.Perm (first ++ w.references)) :
    w'.visited.Perm (first ++ w'.references) := by
  induction h with
  | done w => exact hw
  | skip hseen hrest ih => exact ih hw
  | @visit r rs w w₁ w' d hunseen hproject hinner hrest ihinner ihrest =>
    refine ihrest (ihinner ?_)
    refine (hw.cons r).trans ?_
    rw [enter, ← List.append_assoc]
    exact (List.perm_append_singleton r _).symm

end Follows

end Walk

end WarmCompile
