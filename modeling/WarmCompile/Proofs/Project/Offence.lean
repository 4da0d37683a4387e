import WarmCompile.Proofs.Project.Closure

/-!
When cracking fails, and with what: the projects that a root leads to are met in depth-first order,
each at its first occurrence, and the first of them that is no project is what is complained of.
-/

namespace WarmCompile

namespace Disk

variable {disk : Disk} {rs seen order order' : List String} {p r : String} {e : CompileError}

/-- Why there is no project at a path: the first of three tests that it does not pass. -/
inductive Offends (disk : Disk) (path : String) : CompileError → Prop where
  | notFound (hfile : disk.isFile path = false) : Offends disk path (.projectNotFound path)
  | unreadable {x : IoError} (hfile : disk.isFile path = true)
    (hread : disk.read path = .error x) : Offends disk path (.io path x)
  | rejected {text : String} {f : DocumentFault} (hfile : disk.isFile path = true)
    (hread : disk.read path = .ok text)
    (hparse : Document.parse text (Path.parent path) = .error f) :
    Offends disk path (.invalidProject path (.document f))

/-- The order in which the projects behind some references are met for the first time: each ahead
of those it refers to itself, and these ahead of the next reference. Nothing is behind a path where
there is no project. -/
inductive Meets (disk : Disk) : List String → List String → List String → Prop where
  | done (seen : List String) : Meets disk [] seen []
  | skip {r : String} {rs seen order : List String} (hseen : r ∈ seen)
    (hrest : Meets disk rs seen order) : Meets disk (r :: rs) seen order
  | visit {r : String} {rs seen inner rest : List String} {d : Document} (hnew : r ∉ seen)
    (hproject : disk.IsProject r d) (hinner : Meets disk d.references (r :: seen) inner)
    (hrest : Meets disk rs (inner ++ r :: seen) rest) :
    Meets disk (r :: rs) seen (r :: (inner ++ rest))
  | offend {r : String} {rs seen rest : List String} (hnew : r ∉ seen)
    (hnone : ∀ d, ¬ disk.IsProject r d) (hrest : Meets disk rs (r :: seen) rest) :
    Meets disk (r :: rs) seen (r :: rest)

/-- The first path of an order at which there is no project, and the complaint about it. -/
def FirstOffence (disk : Disk) (order : List String) (e : CompileError) : Prop :=
  ∃ before p after, order = before ++ p :: after ∧ (∀ q ∈ before, ∃ d, disk.IsProject q d) ∧
    disk.Offends p e

/-- There are fewer paths that name a file than a walk has fuel. -/
def Bounded (disk : Disk) : Prop :=
  ∃ files : List String, (∀ p, disk.isFile p = true → p ∈ files) ∧ files.length < disk.reach

/-! ### The tests -/

theorem open_eq_error : Walk.open? disk p = .error e ↔ disk.Offends p e := by
  constructor
  · intro h
    unfold Walk.open? at h
    split at h
    · rename_i hfile
      cases h
      exact .notFound (by simpa using hfile)
    · rename_i hfile
      have hfile : disk.isFile p = true := by simpa using hfile
      split at h
      · rename_i hread
        cases h
        exact .unreadable hfile hread
      · rename_i hread
        split at h
        · rename_i hparse
          cases h
          exact .rejected hfile hread hparse
        · cases h
  · intro h
    cases h with
    | notFound hfile => simp [Walk.open?, hfile]
    | unreadable hfile hread => simp [Walk.open?, hfile, hread]
    | rejected hfile hread hparse => simp [Walk.open?, hfile, hread, hparse]

theorem Offends.not_isProject (h : disk.Offends p e) (d : Document) : ¬ disk.IsProject p d := by
  intro hproject
  cases (open_eq_error.2 h).symm.trans (Walk.open_eq_ok.2 hproject)

/-- At every path there is a project, or exactly one complaint to make. -/
theorem isProject_or_offends (disk : Disk) (p : String) :
    (∃ d, disk.IsProject p d) ∨ ∃ e, disk.Offends p e := by
  cases hopen : Walk.open? disk p with
  | ok d => exact .inl ⟨d, Walk.open_eq_ok.1 hopen⟩
  | error e => exact .inr ⟨e, open_eq_error.1 hopen⟩

theorem firstOffence_cons {d : Document} (hproject : disk.IsProject p d) :
    disk.FirstOffence (p :: order) e ↔ disk.FirstOffence order e := by
  constructor
  · rintro ⟨before, q, after, hsplit, hbefore, hoffends⟩
    cases before with
    | nil =>
      obtain ⟨rfl, -⟩ := List.cons_eq_cons.1 hsplit
      exact absurd hproject (hoffends.not_isProject d)
    | cons x before =>
      obtain ⟨rfl, rfl⟩ := List.cons_eq_cons.1 hsplit
      exact ⟨before, q, after, rfl, fun q' hq' => hbefore q' (List.mem_cons_of_mem _ hq'),
        hoffends⟩
  · rintro ⟨before, q, after, rfl, hbefore, hoffends⟩
    refine ⟨p :: before, q, after, rfl, fun q' hq' => ?_, hoffends⟩
    rcases List.mem_cons.1 hq' with rfl | hq'
    · exact ⟨d, hproject⟩
    · exact hbefore q' hq'

theorem FirstOffence.append (h : disk.FirstOffence order e) (more : List String) :
    disk.FirstOffence (order ++ more) e := by
  obtain ⟨before, p, after, rfl, hrest⟩ := h
  exact ⟨before, p, after ++ more, by simp, hrest⟩

theorem FirstOffence.append_left (hall : ∀ p ∈ order, ∃ d, disk.IsProject p d)
    (h : disk.FirstOffence order' e) : disk.FirstOffence (order ++ order') e := by
  induction order with
  | nil => exact h
  | cons p order ih =>
    obtain ⟨d, hproject⟩ := hall p List.mem_cons_self
    exact (firstOffence_cons hproject).2 (ih fun q hq => hall q (List.mem_cons_of_mem _ hq))

theorem FirstOffence.unique {e' : CompileError} (h : disk.FirstOffence order e)
    (h' : disk.FirstOffence order e') : e = e' := by
  induction order with
  | nil =>
    obtain ⟨before, p, after, hsplit, -⟩ := h
    simp at hsplit
  | cons p order ih =>
    obtain ⟨d, hproject⟩ | ⟨e₀, hoffends⟩ := disk.isProject_or_offends p
    · exact ih ((firstOffence_cons hproject).1 h) ((firstOffence_cons hproject).1 h')
    · have hhead : ∀ {e}, disk.FirstOffence (p :: order) e → disk.Offends p e := by
        rintro e ⟨before, q, after, hsplit, hbefore, hq⟩
        cases before with
        | nil =>
          obtain ⟨rfl, -⟩ := List.cons_eq_cons.1 hsplit
          exact hq
        | cons x before =>
          obtain ⟨rfl, -⟩ := List.cons_eq_cons.1 hsplit
          obtain ⟨d, hproject⟩ := hbefore p List.mem_cons_self
          exact absurd hproject (hoffends.not_isProject d)
      exact Except.error.inj
        ((open_eq_error.2 (hhead h)).symm.trans (open_eq_error.2 (hhead h')))

/-! ### The order -/

namespace Meets

theorem unique (h : disk.Meets rs seen order) (h' : disk.Meets rs seen order') :
    order = order' := by
  induction h generalizing order' with
  | done seen =>
    cases h'
    rfl
  | skip hseen hrest ih =>
    cases h' with
    | skip hseen' hrest' => exact ih hrest'
    | visit hnew => exact absurd hseen hnew
    | offend hnew => exact absurd hseen hnew
  | visit hnew hproject hinner hrest ihinner ihrest =>
    cases h' with
    | skip hseen => exact absurd hseen hnew
    | visit hnew' hproject' hinner' hrest' =>
      obtain rfl := hproject.unique hproject'
      obtain rfl := ihinner hinner'
      rw [ihrest hrest']
    | offend hnew' hnone => exact absurd hproject (hnone _)
  | offend hnew hnone hrest ih =>
    cases h' with
    | skip hseen => exact absurd hseen hnew
    | visit hnew' hproject => exact absurd hproject (hnone _)
    | offend hnew' hnone' hrest' => rw [ih hrest']

theorem subset (h : disk.Meets rs seen order) : rs ⊆ order ++ seen := by
  induction h with
  | done seen => exact List.nil_subset _
  | skip hseen hrest ih => exact List.cons_subset.2 ⟨List.mem_append_right _ hseen, ih⟩
  | visit hnew hproject hinner hrest ihinner ihrest =>
    refine List.cons_subset.2 ⟨List.mem_append_left _ List.mem_cons_self, fun p hp => ?_⟩
    have hp := ihrest hp
    simp only [List.mem_append, List.mem_cons] at hp ⊢
    tauto
  | offend hnew hnone hrest ih =>
    refine List.cons_subset.2 ⟨List.mem_append_left _ List.mem_cons_self, fun p hp => ?_⟩
    have hp := ih hp
    simp only [List.mem_append, List.mem_cons] at hp ⊢
    tauto

/-- All that a project of the order refers to has been met. -/
theorem closed (h : disk.Meets rs seen order) (hp : p ∈ order) {d : Document}
    (hd : disk.IsProject p d) : d.references ⊆ order ++ seen := by
  induction h with
  | done seen => exact absurd hp List.not_mem_nil
  | skip hseen hrest ih => exact ih hp
  | @visit r rs seen inner rest d' hnew hproject hinner hrest ihinner ihrest =>
    have hmore : ∀ q, q ∈ inner ++ r :: seen → q ∈ r :: (inner ++ rest) ++ seen := by
      intro q hq
      simp only [List.mem_append, List.mem_cons] at hq ⊢
      tauto
    rcases List.mem_cons.1 hp with rfl | hp
    · obtain rfl := hd.unique hproject
      exact fun q hq => hmore q (hinner.subset hq)
    · rcases List.mem_append.1 hp with hp | hp
      · exact fun q hq => hmore q (ihinner hp hq)
      · intro q hq
        have hq := ihrest hp hq
        simp only [List.mem_append, List.mem_cons] at hq ⊢
        tauto
  | offend hnew hnone hrest ih =>
    rcases List.mem_cons.1 hp with rfl | hp
    · exact absurd hd (hnone d)
    · intro q hq
      have hq := ih hp hq
      simp only [List.mem_append, List.mem_cons] at hq ⊢
      tauto

theorem reached (h : disk.Meets rs seen order) (hp : p ∈ order) :
    ∃ r ∈ rs, disk.Reaches r p := by
  induction h with
  | done seen => exact absurd hp List.not_mem_nil
  | skip hseen hrest ih =>
    obtain ⟨r, hr, hreach⟩ := ih hp
    exact ⟨r, List.mem_cons_of_mem _ hr, hreach⟩
  | visit hnew hproject hinner hrest ihinner ihrest =>
    rcases List.mem_cons.1 hp with rfl | hp
    · exact ⟨p, List.mem_cons_self, .refl⟩
    · rcases List.mem_append.1 hp with hp | hp
      · obtain ⟨q, hq, hreach⟩ := ihinner hp
        exact ⟨_, List.mem_cons_self, .head ⟨_, hproject, hq⟩ hreach⟩
      · obtain ⟨q, hq, hreach⟩ := ihrest hp
        exact ⟨q, List.mem_cons_of_mem _ hq, hreach⟩
  | offend hnew hnone hrest ih =>
    rcases List.mem_cons.1 hp with rfl | hp
    · exact ⟨p, List.mem_cons_self, .refl⟩
    · obtain ⟨q, hq, hreach⟩ := ih hp
      exact ⟨q, List.mem_cons_of_mem _ hq, hreach⟩

theorem nodup (h : disk.Meets rs seen order) (hseen : seen.Nodup) : (order ++ seen).Nodup := by
  induction h with
  | done seen => exact hseen
  | skip hr hrest ih => exact ih hseen
  | @visit r rs seen inner rest d hnew hproject hinner hrest ihinner ihrest =>
    have hall := ihrest (ihinner (List.nodup_cons.2 ⟨hnew, hseen⟩))
    refine List.Perm.nodup ?_ hall
    rw [List.perm_iff_count]
    intro x
    simp only [List.count_append, List.count_cons]
    omega
  | offend hnew hnone hrest ih =>
    refine List.Perm.nodup ?_ (ih (List.nodup_cons.2 ⟨hnew, hseen⟩))
    rw [List.cons_append]
    exact List.perm_middle

/-- From a single root, exactly what it reaches is met. -/
theorem mem_iff (h : disk.Meets [r] [] order) : p ∈ order ↔ disk.Reaches r p := by
  constructor
  · intro hp
    obtain ⟨q, hq, hreach⟩ := h.reached hp
    rwa [List.mem_singleton.1 hq] at hreach
  · intro hreach
    induction hreach with
    | refl => simpa using h.subset List.mem_cons_self
    | tail hreach hrefers ih =>
      obtain ⟨d, hproject, hq⟩ := hrefers
      simpa using h.closed ih hproject hq

end Meets

/-- On a disk with finitely many files there is such an order. -/
theorem exists_meets {files : List String} (hfiles : ∀ p d, disk.IsProject p d → p ∈ files)
    (rs seen : List String) : ∃ order, disk.Meets rs seen order := by
  induction hn : Walk.unvisited files seen using Nat.strong_induction_on generalizing rs seen with
  | _ n ihn =>
    subst hn
    suffices h : ∀ seen', seen ⊆ seen' → ∃ order, disk.Meets rs seen' order from
      h seen (List.Subset.refl _)
    induction rs with
    | nil => exact fun seen' _ => ⟨[], .done seen'⟩
    | cons r rs ih =>
      intro seen' hsub
      by_cases hseen : r ∈ seen'
      · obtain ⟨order, horder⟩ := ih seen' hsub
        exact ⟨order, .skip hseen horder⟩
      · obtain ⟨d, hproject⟩ | ⟨e, hoffends⟩ := disk.isProject_or_offends r
        · have hless : Walk.unvisited files (r :: seen') < Walk.unvisited files seen :=
            Nat.lt_of_lt_of_le (Walk.unvisited_cons_lt (hfiles r d hproject) hseen)
              (Walk.unvisited_le hsub)
          obtain ⟨inner, hinner⟩ := ihn _ hless d.references (r :: seen') rfl
          obtain ⟨rest, hrest⟩ := ih (inner ++ r :: seen') fun p hp =>
            List.mem_append_right _ (List.mem_cons_of_mem _ (hsub hp))
          exact ⟨_, .visit hseen hproject hinner hrest⟩
        · obtain ⟨rest, hrest⟩ := ih (r :: seen') fun p hp => List.mem_cons_of_mem _ (hsub hp)
          exact ⟨_, .offend hseen hoffends.not_isProject hrest⟩

end Disk

namespace Walk

variable {disk : Disk} {files rs seen order : List String} {w : Walk} {n : Nat}

theorem visit_eq_error {r : String} {e : CompileError} : visit disk (n + 1) r w = .error e ↔
    disk.Offends (Path.forward r) e ∨ ∃ d, disk.IsProject (Path.forward r) d ∧
      follow (visit disk n) d.references
        { w with visited := Path.forward r :: w.visited } = .error e := by
  rw [visit, bind_eq_error, Disk.open_eq_error]
  refine or_congr_right (exists_congr fun d => ?_)
  rw [open_eq_ok, bind_eq_error]
  refine and_congr_right fun _ => ⟨?_, .inl⟩
  rintro (h | ⟨_, _, h⟩)
  · exact h
  · cases h

/-- Where the walk gets past some references, or what it complains of. -/
theorem follow_of_meets (hfiles : ∀ p d, disk.IsProject p d → p ∈ files)
    (hback : ∀ r ∈ rs, '\\' ∉ r.toList) (hmeets : disk.Meets rs seen order)
    (hseen : ∀ p, p ∈ w.visited ↔ p ∈ seen) (hfuel : unvisited files w.visited < n) :
    ((∀ p ∈ order, ∃ d, disk.IsProject p d) ∧ ∃ w', follow (visit disk n) rs w = .ok w' ∧
      ∀ p, p ∈ w'.visited ↔ p ∈ order ++ seen) ∨
    ∃ e, follow (visit disk n) rs w = .error e ∧ disk.FirstOffence order e := by
  induction hmeets generalizing n w with
  | done seen => exact .inl ⟨nofun, w, rfl, hseen⟩
  | @skip r rs seen order hr hrest ih =>
    have hrest' := ih (fun q hq => hback q (List.mem_cons_of_mem _ hq)) hseen hfuel
    rwa [follow, if_pos ((hseen r).2 hr)]
  | @visit r rs seen inner rest d hnew hproject hinner hrest ihinner ihrest =>
    obtain ⟨n, rfl⟩ := Nat.exists_eq_succ_of_ne_zero (Nat.ne_zero_of_lt hfuel)
    have hr := hback r List.mem_cons_self
    have hunseen : r ∉ w.visited := fun h => hnew ((hseen r).1 h)
    have hless := unvisited_cons_lt (hfiles r d hproject) hunseen
    have hrefs : ∀ q ∈ d.references, '\\' ∉ q.toList := fun q hq =>
      (hproject.folded hr q (List.mem_append_right _ hq)).not_mem
    obtain ⟨hall, w₁, hfollow, hvisited⟩ | ⟨e, hfollow, hoffence⟩ := ihinner (w := w.enter r)
      hrefs (fun p => by simp [enter, hseen]) (Nat.lt_of_lt_of_le hless (Nat.le_of_lt_succ hfuel))
    · have hvisit : visit disk (n + 1) r { w with references := w.references ++ [r] } =
          .ok (d, w₁.leave d) := by
        rw [visit_eq_ok, Path.forward_of_not_mem hr]
        exact ⟨hproject, w₁, hfollow, rfl⟩
      have hmore : w.visited ⊆ w₁.visited := fun p hp => (hvisited p).2
        (List.mem_append_right _ (List.mem_cons_of_mem _ ((hseen p).1 hp)))
      rw [follow, if_neg hunseen, hvisit]
      obtain ⟨hall', w', hfollow', hvisited'⟩ | ⟨e, hfollow', hoffence⟩ := ihrest
        (w := w₁.leave d) (fun q hq => hback q (List.mem_cons_of_mem _ hq)) hvisited
        (Nat.lt_of_le_of_lt (unvisited_le hmore) hfuel)
      · refine .inl ⟨fun p hp => ?_, w', hfollow', fun p => ?_⟩
        · rcases List.mem_cons.1 hp with rfl | hp
          · exact ⟨d, hproject⟩
          · exact (List.mem_append.1 hp).elim (hall p) (hall' p)
        · rw [hvisited']
          simp only [List.mem_append, List.mem_cons]
          tauto
      · exact .inr ⟨e, hfollow', (Disk.firstOffence_cons hproject).2 (hoffence.append_left hall)⟩
    · refine .inr ⟨e, ?_, (Disk.firstOffence_cons hproject).2 (hoffence.append rest)⟩
      rw [follow, if_neg hunseen, visit_eq_error.2]
      · rfl
      · rw [Path.forward_of_not_mem hr]
        exact .inr ⟨d, hproject, hfollow⟩
  | @offend r rs seen rest hnew hnone hrest ih =>
    obtain ⟨n, rfl⟩ := Nat.exists_eq_succ_of_ne_zero (Nat.ne_zero_of_lt hfuel)
    obtain ⟨d, hproject⟩ | ⟨e, hoffends⟩ := disk.isProject_or_offends r
    · exact absurd hproject (hnone d)
    · refine .inr ⟨e, ?_, [], r, rest, rfl, nofun, hoffends⟩
      have hr := hback r List.mem_cons_self
      rw [follow, if_neg fun h => hnew ((hseen r).1 h), visit, Path.forward_of_not_mem hr,
        Disk.open_eq_error.2 hoffends]
      rfl

end Walk

variable {disk : Disk} {config : ProjectConfig}

theorem ProjectConfig.crack_eq_error {e : CompileError} : config.crack disk = .error e ↔
    Walk.visit disk disk.reach config.projectFile .empty = .error e := by
  refine bind_eq_error.trans ⟨fun h => h.elim id ?_, .inl⟩
  rintro ⟨⟨d, w⟩, -, h⟩
  cases h

theorem Walk.unvisited_singleton_lt {files : List String} {r : String} {n : Nat} (hr : r ∈ files)
    (hlength : files.length < n + 1) : unvisited files [r] < n := by
  have hless := unvisited_cons_lt hr List.not_mem_nil
  have hcard : unvisited files [] ≤ files.length :=
    (Finset.card_le_card Finset.sdiff_subset).trans (List.toFinset_card_le files)
  omega

/-- Cracking succeeds, or it complains of the first path that is met where there is no project. -/
theorem ProjectConfig.crack_of_meets {order : List String} (hdisk : disk.Bounded)
    (hmeets : disk.Meets [Path.forward config.projectFile] [] order) :
    ((∀ p ∈ order, ∃ d, disk.IsProject p d) ∧ ∃ r, config.crack disk = .ok r) ∨
    ∃ e, config.crack disk = .error e ∧ disk.FirstOffence order e := by
  obtain ⟨files, hfiles, hlength⟩ := hdisk
  have hprojects : ∀ p d, disk.IsProject p d → p ∈ files := fun p d h => hfiles p h.isFile
  obtain ⟨n, hreach⟩ := Nat.exists_eq_succ_of_ne_zero (Nat.ne_zero_of_lt hlength)
  rw [hreach] at hlength
  simp only [crack_eq_ok, crack_eq_error, hreach, Walk.visit_eq_error]
  cases hmeets with
  | skip hseen => cases hseen
  | @visit _ _ _ inner rest d hnew hproject hinner hrest =>
    cases hrest
    have hrefs : ∀ q ∈ d.references, '\\' ∉ q.toList := fun q hq =>
      (hproject.folded (Path.not_mem_forward _) q (List.mem_append_right _ hq)).not_mem
    have hfuel := Walk.unvisited_singleton_lt (hprojects _ d hproject) hlength
    rw [List.append_nil]
    obtain ⟨hall, w, hfollow, -⟩ | ⟨e, hfollow, hoffence⟩ := Walk.follow_of_meets
      (w := ⟨[Path.forward config.projectFile], [], []⟩) hprojects hrefs hinner
      (fun p => Iff.rfl) hfuel
    · refine .inl ⟨fun p hp => ?_, _, d, _, Walk.visit_eq_ok.2 ⟨hproject, w, hfollow, rfl⟩, rfl⟩
      rcases List.mem_cons.1 hp with rfl | hp
      · exact ⟨d, hproject⟩
      · exact hall p hp
    · exact .inr ⟨e, .inr ⟨d, hproject, hfollow⟩, (Disk.firstOffence_cons hproject).2 hoffence⟩
  | @offend _ _ _ rest hnew hnone hrest =>
    obtain ⟨d, hproject⟩ | ⟨e, hoffends⟩ :=
      disk.isProject_or_offends (Path.forward config.projectFile)
    · exact absurd hproject (hnone d)
    · exact .inr ⟨e, .inl hoffends, [], _, rest, rfl, nofun, hoffends⟩

theorem ProjectConfig.crack_isOk_iff (hdisk : disk.Bounded) : (∃ r, config.crack disk = .ok r) ↔
    ∀ p, disk.Reaches (Path.forward config.projectFile) p → ∃ d, disk.IsProject p d := by
  obtain ⟨files, hfiles, -⟩ := id hdisk
  obtain ⟨order, hmeets⟩ := Disk.exists_meets (fun p d h => hfiles p h.isFile)
    [Path.forward config.projectFile] []
  simp only [← hmeets.mem_iff]
  obtain ⟨hall, hok⟩ | ⟨e, herror, before, p, after, rfl, -, hoffends⟩ :=
    crack_of_meets hdisk hmeets
  · exact iff_of_true hok hall
  · refine iff_of_false ?_ fun h => ?_
    · rintro ⟨r, hok⟩
      cases herror.symm.trans hok
    · obtain ⟨d, hproject⟩ := h p (List.mem_append_right _ List.mem_cons_self)
      exact hoffends.not_isProject d hproject

/-- What cracking makes of a project whose references may lead anywhere, back to where they come
from included. The projects are met in the one depth-first order, and are all those that the root
leads to, each once. Cracking succeeds if and only if there is a project at all of these paths, and
otherwise fails with the complaint about the first path where there is none. -/
theorem ProjectConfig.crack_first_offence (hdisk : disk.Bounded) (config : ProjectConfig) :
    ∃ order, (∀ order', disk.Meets [Path.forward config.projectFile] [] order' ↔ order' = order) ∧
      order.Nodup ∧ (∀ p, p ∈ order ↔ disk.Reaches (Path.forward config.projectFile) p) ∧
      ((∃ r, config.crack disk = .ok r) ↔
        ∀ p, disk.Reaches (Path.forward config.projectFile) p → ∃ d, disk.IsProject p d) ∧
      ∀ e, config.crack disk = .error e ↔ disk.FirstOffence order e := by
  obtain ⟨files, hfiles, -⟩ := id hdisk
  obtain ⟨order, hmeets⟩ := Disk.exists_meets (fun p d h => hfiles p h.isFile)
    [Path.forward config.projectFile] []
  have hnodup := hmeets.nodup List.nodup_nil
  rw [List.append_nil] at hnodup
  refine ⟨order, fun order' => ?_, hnodup, fun p => hmeets.mem_iff, crack_isOk_iff hdisk,
    fun e => ?_⟩
  · exact ⟨fun h => h.unique hmeets, fun h => h ▸ hmeets⟩
  · obtain ⟨hall, r, hok⟩ | ⟨e', herror, hoffence⟩ := crack_of_meets hdisk hmeets
    · refine iff_of_false (fun h => ?_) ?_
      · cases hok.symm.trans h
      · rintro ⟨before, p, after, rfl, -, hoffends⟩
        obtain ⟨d, hproject⟩ := hall p (List.mem_append_right _ List.mem_cons_self)
        exact hoffends.not_isProject d hproject
    · rw [herror, Except.error.injEq]
      exact ⟨fun h => h ▸ hoffence, hoffence.unique⟩

/-- A project that refers to one that is not there, behind one that leads back to it and to a file
that is no text. -/
def maze : List (String × String) :=
  [("/p/App.fsproj", "<Project><ProjectReference Include=\"Lib.fsproj\"/>" ++
      "<ProjectReference Include=\"Gone.fsproj\"/></Project>"),
    ("/p/Lib.fsproj", "<Project><ProjectReference Include=\"./App.fsproj\"/>" ++
      "<ProjectReference Include=\"Raw.fsproj\"/></Project>"),
    ("/p/Raw.fsproj", "")]

def mazeDisk : Disk where
  isFile := (Disk.ofFiles maze).isFile
  read path := if path = "/p/Raw.fsproj" then .error .notUtf8 else (Disk.ofFiles maze).read path
  reach := 4

theorem ProjectConfig.crack_first_offence_maze : mazeDisk.Bounded ∧
    ringConfig.crack mazeDisk = .error (.io "/p/Raw.fsproj" .notUtf8) ∧
    ∃ order, (∀ order', mazeDisk.Meets ["/p/App.fsproj"] [] order' ↔ order' = order) ∧
      mazeDisk.FirstOffence order (.io "/p/Raw.fsproj" .notUtf8) := by
  have hbounded : mazeDisk.Bounded :=
    ⟨maze.map (·.1), fun p hp => Disk.mem_of_isFile hp, by decide⟩
  have hcrack : ringConfig.crack mazeDisk = .error (.io "/p/Raw.fsproj" .notUtf8) := by
    decide +kernel
  have hroot : Path.forward ringConfig.projectFile = "/p/App.fsproj" := by decide +kernel
  obtain ⟨order, hmeets, -, -, -, herror⟩ :=
    ProjectConfig.crack_first_offence hbounded ringConfig
  rw [hroot] at hmeets
  exact ⟨hbounded, hcrack, order, hmeets, (herror _).1 hcrack⟩

end WarmCompile
