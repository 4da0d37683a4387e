import WarmCompile.Proofs.Project.Offence

/-!
How much a walk reads: however projects refer to each other, the walk comes to an end, and but for
the root it reads each project once for all references that lead to it.
-/

namespace WarmCompile

namespace Walk

/-! ### Taking note of what is read -/

/-- A file is read if there is one. -/
def reading (disk : Disk) (path : String) : List String :=
  if disk.isFile path then [path] else []

def followNoted (visit : String → Walk → Except CompileError (Document × Walk) × List String) :
    List String → Walk → Except CompileError Walk × List String
  | [], w => (.ok w, [])
  | r :: rs, w =>
    if r ∈ w.visited then followNoted visit rs w
    else match visit r { w with references := w.references ++ [r] } with
      | (.error e, reads) => (.error e, reads)
      | (.ok (_, w), reads) =>
        let (outcome, more) := followNoted visit rs w
        (outcome, reads ++ more)

/-- The walk, with a note of each file that it reads. -/
def visitNoted (disk : Disk) :
    Nat → String → Walk → Except CompileError (Document × Walk) × List String
  | 0, path, _ => (.error (.internal ("project references of " ++ path ++ " do not end")), [])
  | n + 1, path, w =>
    let path := Path.forward path
    match open? disk path with
    | .error e => (.error e, reading disk path)
    | .ok d =>
      match followNoted (visitNoted disk n) d.references
        { w with visited := path :: w.visited } with
      | (.error e, reads) => (.error e, reading disk path ++ reads)
      | (.ok w, reads) =>
        (.ok (d, { w with sources := Document.addNew w.sources d.compileItems }),
          reading disk path ++ reads)

theorem followNoted_fst {visit : String → Walk → Except CompileError (Document × Walk)}
    {noted : String → Walk → Except CompileError (Document × Walk) × List String}
    (hvisit : ∀ r w, (noted r w).1 = visit r w) (rs : List String) (w : Walk) :
    (followNoted noted rs w).1 = follow visit rs w := by
  induction rs generalizing w with
  | nil => rfl
  | cons r rs ih =>
    rw [followNoted, follow]
    split
    · exact ih w
    · rw [← hvisit]
      rcases noted r { w with references := w.references ++ [r] } with ⟨e | ⟨d, w₁⟩, reads⟩
      · rfl
      · exact ih w₁

/-- Taking note changes nothing in the walk. -/
theorem visitNoted_fst (disk : Disk) (n : Nat) (path : String) (w : Walk) :
    (visitNoted disk n path w).1 = visit disk n path w := by
  induction n generalizing path w with
  | zero => rfl
  | succ n ih =>
    simp only [visitNoted, visit]
    cases open? disk (Path.forward path) with
    | error e => rfl
    | ok d =>
      have hfollow := followNoted_fst ih d.references
        { w with visited := Path.forward path :: w.visited }
      dsimp only [bind, Except.bind]
      rw [← hfollow]
      rcases followNoted (visitNoted disk n) d.references _ with ⟨e | w₁, reads⟩ <;> rfl

section

variable {disk disk' : Disk}

theorem open_congr {path : String} (hfile : disk'.isFile = disk.isFile)
    (hread : ∀ p ∈ reading disk path, disk'.read p = disk.read p) :
    open? disk' path = open? disk path := by
  unfold open?
  rw [hfile]
  split
  · rfl
  · rename_i hpath
    have hmem : path ∈ reading disk path := by
      rw [reading, if_pos (by simpa using hpath)]
      exact List.mem_singleton_self path
    rw [hread path hmem]

theorem followNoted_congr
    {noted noted' : String → Walk → Except CompileError (Document × Walk) × List String}
    (hvisit : ∀ r w, (∀ p ∈ (noted r w).2, disk'.read p = disk.read p) → noted' r w = noted r w)
    {rs : List String} {w : Walk}
    (hread : ∀ p ∈ (followNoted noted rs w).2, disk'.read p = disk.read p) :
    followNoted noted' rs w = followNoted noted rs w := by
  induction rs generalizing w with
  | nil => rfl
  | cons r rs ih =>
    rw [followNoted] at hread ⊢
    rw [followNoted]
    split
    · rename_i hseen
      rw [if_pos hseen] at hread
      exact ih hread
    · rename_i hnew
      rw [if_neg hnew] at hread
      rcases hfirst : noted r { w with references := w.references ++ [r] } with ⟨e | ⟨d, w₁⟩, reads⟩
      · simp only [hfirst] at hread
        rw [hvisit r _ (by rwa [hfirst]), hfirst]
      · simp only [hfirst, List.mem_append] at hread
        rw [hvisit r _ (by rw [hfirst]; exact fun p hp => hread p (.inl hp)), hfirst]
        simp only [ih fun p hp => hread p (.inr hp)]

/-- What is noted is all that is read: the contents of other files make no difference. -/
theorem visitNoted_congr (hfile : disk'.isFile = disk.isFile) {n : Nat} {path : String} {w : Walk}
    (hread : ∀ p ∈ (visitNoted disk n path w).2, disk'.read p = disk.read p) :
    visitNoted disk' n path w = visitNoted disk n path w := by
  induction n generalizing path w with
  | zero => rfl
  | succ n ih =>
    have hreading : reading disk' = reading disk := by
      funext p
      rw [reading, reading, hfile]
    have hopen : (∀ p ∈ reading disk (Path.forward path), disk'.read p = disk.read p) →
        open? disk' (Path.forward path) = open? disk (Path.forward path) := open_congr hfile
    simp only [visitNoted] at hread ⊢
    rw [hreading]
    cases hfound : open? disk (Path.forward path) with
    | error e =>
      simp only [hfound] at hread
      simp only [hopen hread, hfound]
    | ok d =>
      simp only [hfound] at hread
      rcases hinner : followNoted (visitNoted disk n) d.references
        { w with visited := Path.forward path :: w.visited } with ⟨e | w₁, reads⟩ <;>
      · simp only [hinner, List.mem_append] at hread
        have hsame : followNoted (visitNoted disk' n) d.references
            { w with visited := Path.forward path :: w.visited } = _ :=
          followNoted_congr (fun r w h => ih h)
            (by rw [hinner]; exact fun p hp => hread p (.inr hp))
        simp only [hopen fun p hp => hread p (.inl hp), hfound, hsame, hinner]

end

/-! ### The walk without fuel -/

/-- What the walk past some references comes to, and the files that it reads. -/
inductive Passes (disk : Disk) :
    List String → Walk → Except CompileError Walk → List String → Prop where
  | done (w : Walk) : Passes disk [] w (.ok w) []
  | skip {r : String} {rs : List String} {w : Walk} {outcome : Except CompileError Walk}
    {reads : List String} (hseen : r ∈ w.visited) (hrest : Passes disk rs w outcome reads) :
    Passes disk (r :: rs) w outcome reads
  | offend {r : String} {rs : List String} {w : Walk} {e : CompileError} (hnew : r ∉ w.visited)
    (hoffends : disk.Offends r e) : Passes disk (r :: rs) w (.error e) (reading disk r)
  | fail {r : String} {rs : List String} {w : Walk} {d : Document} {e : CompileError}
    {reads : List String} (hnew : r ∉ w.visited) (hproject : disk.IsProject r d)
    (hinner : Passes disk d.references (w.enter r) (.error e) reads) :
    Passes disk (r :: rs) w (.error e) (r :: reads)
  | visit {r : String} {rs : List String} {w w₁ : Walk} {d : Document}
    {outcome : Except CompileError Walk} {reads more : List String} (hnew : r ∉ w.visited)
    (hproject : disk.IsProject r d)
    (hinner : Passes disk d.references (w.enter r) (.ok w₁) reads)
    (hrest : Passes disk rs (w₁.leave d) outcome more) :
    Passes disk (r :: rs) w outcome (r :: (reads ++ more))

variable {disk : Disk} {files rs reads : List String} {w w' : Walk} {p r : String} {n : Nat}
  {outcome : Except CompileError Walk} {d : Document} {e : CompileError}

theorem mem_reading : p ∈ reading disk r ↔ p = r ∧ disk.isFile r = true := by
  unfold reading
  split <;> simp [*]

theorem nodup_reading : (reading disk r).Nodup := by
  unfold reading
  split
  · exact List.nodup_singleton _
  · exact List.nodup_nil

theorem length_reading_le (disk : Disk) (path : String) : (reading disk path).length ≤ 1 := by
  unfold reading
  split <;> simp

theorem reading_of_isProject (h : disk.IsProject r d) : reading disk r = [r] :=
  if_pos h.isFile

namespace Passes

theorem visited_subset (h : Passes disk rs w (.ok w') reads) : w.visited ⊆ w'.visited := by
  generalize houtcome : Except.ok w' = outcome at h
  induction h generalizing w' with
  | done w =>
    cases houtcome
    exact List.Subset.refl _
  | skip hseen hrest ih => exact ih houtcome
  | offend hnew hoffends => cases houtcome
  | fail hnew hproject hinner ih => cases houtcome
  | visit hnew hproject hinner hrest ihinner ihrest =>
    exact fun p hp => ihrest houtcome (ihinner rfl (List.mem_cons_of_mem _ hp))

/-- Nothing is read that has been visited. -/
theorem not_mem_visited (h : Passes disk rs w outcome reads) (hp : p ∈ reads) : p ∉ w.visited := by
  induction h with
  | done w => cases hp
  | skip hseen hrest ih => exact ih hp
  | offend hnew hoffends =>
    obtain ⟨rfl, -⟩ := mem_reading.1 hp
    exact hnew
  | fail hnew hproject hinner ih =>
    rcases List.mem_cons.1 hp with rfl | hp
    · exact hnew
    · exact fun hw => ih hp (List.mem_cons_of_mem _ hw)
  | @visit r rs w w₁ d outcome reads more hnew hproject hinner hrest ihinner ihrest =>
    rcases List.mem_cons.1 hp with rfl | hp
    · exact hnew
    · intro hw
      have hentered : p ∈ (w.enter r).visited := List.mem_cons_of_mem r hw
      rcases List.mem_append.1 hp with hp | hp
      · exact ihinner hp hentered
      · exact ihrest hp (hinner.visited_subset hentered)

theorem reads_subset (h : Passes disk rs w (.ok w') reads) : reads ⊆ w'.visited := by
  generalize houtcome : Except.ok w' = outcome at h
  induction h generalizing w' with
  | done w => exact List.nil_subset _
  | skip hseen hrest ih => exact ih houtcome
  | offend hnew hoffends => cases houtcome
  | fail hnew hproject hinner ih => cases houtcome
  | visit hnew hproject hinner hrest ihinner ihrest =>
    subst houtcome
    have hmore := hrest.visited_subset
    refine List.cons_subset.2 ⟨hmore (hinner.visited_subset List.mem_cons_self), ?_⟩
    exact List.append_subset.2 ⟨fun p hp => hmore (ihinner rfl hp), ihrest rfl⟩

theorem nodup (h : Passes disk rs w outcome reads) : reads.Nodup := by
  induction h with
  | done w => exact List.nodup_nil
  | skip hseen hrest ih => exact ih
  | offend hnew hoffends => exact nodup_reading
  | fail hnew hproject hinner ih =>
    exact List.nodup_cons.2 ⟨fun hr => hinner.not_mem_visited hr List.mem_cons_self, ih⟩
  | visit hnew hproject hinner hrest ihinner ihrest =>
    refine List.nodup_cons.2 ⟨fun hr => ?_, ihinner.append ihrest fun p hp hp' => ?_⟩
    · rcases List.mem_append.1 hr with hr | hr
      · exact hinner.not_mem_visited hr List.mem_cons_self
      · exact hrest.not_mem_visited hr (hinner.visited_subset List.mem_cons_self)
    · exact hrest.not_mem_visited hp' (hinner.reads_subset hp)

/-- What is read is one of the references, or a project that is read refers to it. -/
theorem named (h : Passes disk rs w outcome reads) (hp : p ∈ reads) :
    p ∈ rs ∨ ∃ q ∈ reads, disk.Refers q p := by
  induction h with
  | done w => cases hp
  | skip hseen hrest ih => exact (ih hp).imp_left (List.mem_cons_of_mem _)
  | offend hnew hoffends =>
    obtain ⟨rfl, -⟩ := mem_reading.1 hp
    exact .inl List.mem_cons_self
  | fail hnew hproject hinner ih =>
    rcases List.mem_cons.1 hp with rfl | hp
    · exact .inl List.mem_cons_self
    · rcases ih hp with href | ⟨q, hq, hrefers⟩
      · exact .inr ⟨_, List.mem_cons_self, _, hproject, href⟩
      · exact .inr ⟨q, List.mem_cons_of_mem _ hq, hrefers⟩
  | visit hnew hproject hinner hrest ihinner ihrest =>
    rcases List.mem_cons.1 hp with rfl | hp
    · exact .inl List.mem_cons_self
    · rcases List.mem_append.1 hp with hp | hp
      · rcases ihinner hp with href | ⟨q, hq, hrefers⟩
        · exact .inr ⟨_, List.mem_cons_self, _, hproject, href⟩
        · exact .inr ⟨q, List.mem_cons_of_mem _ (List.mem_append_left _ hq), hrefers⟩
      · rcases ihrest hp with href | ⟨q, hq, hrefers⟩
        · exact .inl (List.mem_cons_of_mem _ href)
        · exact .inr ⟨q, List.mem_cons_of_mem _ (List.mem_append_right _ hq), hrefers⟩

theorem offends (h : Passes disk rs w (.error e) reads) : ∃ p, disk.Offends p e := by
  generalize houtcome : Except.error e = outcome at h
  induction h with
  | done w => cases houtcome
  | skip hseen hrest ih => exact ih houtcome
  | offend hnew hoffends =>
    cases houtcome
    exact ⟨_, hoffends⟩
  | fail hnew hproject hinner ih => exact ih houtcome
  | visit hnew hproject hinner hrest ihinner ihrest => exact ihrest houtcome

/-- With more fuel than there are files to visit, the walk is the one without fuel. -/
theorem followNoted_eq (hfiles : ∀ p, disk.isFile p = true → p ∈ files)
    (hback : ∀ r ∈ rs, '\\' ∉ r.toList) (h : Passes disk rs w outcome reads)
    (hfuel : unvisited files w.visited < n) :
    followNoted (visitNoted disk n) rs w = (outcome, reads) := by
  induction h generalizing n with
  | done w => rfl
  | skip hseen hrest ih =>
    rw [followNoted, if_pos hseen]
    exact ih (fun q hq => hback q (List.mem_cons_of_mem _ hq)) hfuel
  | offend hnew hoffends =>
    obtain ⟨n, rfl⟩ := Nat.exists_eq_succ_of_ne_zero (Nat.ne_zero_of_lt hfuel)
    have hr := Path.forward_of_not_mem (hback _ List.mem_cons_self)
    rw [followNoted, if_neg hnew, visitNoted]
    simp only [hr, Disk.open_eq_error.2 hoffends]
  | fail hnew hproject hinner ih =>
    obtain ⟨n, rfl⟩ := Nat.exists_eq_succ_of_ne_zero (Nat.ne_zero_of_lt hfuel)
    have hr := hback _ List.mem_cons_self
    have hless := unvisited_cons_lt (hfiles _ hproject.isFile) hnew
    have hinner' := ih (fun q hq => (hproject.folded hr q (List.mem_append_right _ hq)).not_mem)
      (Nat.lt_of_lt_of_le hless (Nat.le_of_lt_succ hfuel))
    rw [enter] at hinner'
    rw [followNoted, if_neg hnew, visitNoted]
    simp only [Path.forward_of_not_mem hr, open_eq_ok.2 hproject, hinner',
      reading_of_isProject hproject, List.singleton_append]
  | visit hnew hproject hinner hrest ihinner ihrest =>
    obtain ⟨n, rfl⟩ := Nat.exists_eq_succ_of_ne_zero (Nat.ne_zero_of_lt hfuel)
    have hr := hback _ List.mem_cons_self
    have hless := unvisited_cons_lt (hfiles _ hproject.isFile) hnew
    have hinner' := ihinner
      (fun q hq => (hproject.folded hr q (List.mem_append_right _ hq)).not_mem)
      (Nat.lt_of_lt_of_le hless (Nat.le_of_lt_succ hfuel))
    have hmore : unvisited files _ ≤ _ := unvisited_le hinner.visited_subset
    have hrest' := ihrest (fun q hq => hback q (List.mem_cons_of_mem _ hq))
      (Nat.lt_of_le_of_lt hmore (Nat.lt_trans hless hfuel))
    rw [enter] at hinner'
    rw [leave] at hrest'
    rw [followNoted, if_neg hnew, visitNoted]
    simp only [Path.forward_of_not_mem hr, open_eq_ok.2 hproject, hinner',
      reading_of_isProject hproject, hrest', List.cons_append, List.nil_append]

end Passes

/-- On a disk with finitely many files every walk gets somewhere. -/
theorem exists_passes (hfiles : ∀ p, disk.isFile p = true → p ∈ files) (rs : List String)
    (w : Walk) : ∃ outcome reads, Passes disk rs w outcome reads := by
  induction hn : unvisited files w.visited using Nat.strong_induction_on generalizing rs w with
  | _ n ihn =>
    subst hn
    suffices h : ∀ w' : Walk, w.visited ⊆ w'.visited →
        ∃ outcome reads, Passes disk rs w' outcome reads from h w (List.Subset.refl _)
    induction rs with
    | nil => exact fun w' _ => ⟨_, _, .done w'⟩
    | cons r rs ih =>
      intro w' hsub
      by_cases hseen : r ∈ w'.visited
      · obtain ⟨outcome, reads, hrest⟩ := ih w' hsub
        exact ⟨outcome, reads, .skip hseen hrest⟩
      · obtain ⟨d, hproject⟩ | ⟨e, hoffends⟩ := disk.isProject_or_offends r
        · have hless : unvisited files (r :: w'.visited) < unvisited files w.visited :=
            Nat.lt_of_lt_of_le (unvisited_cons_lt (hfiles r hproject.isFile) hseen)
              (unvisited_le hsub)
          obtain ⟨outcome, reads, hinner⟩ := ihn _ hless d.references (w'.enter r) rfl
          cases outcome with
          | error e => exact ⟨_, _, .fail hseen hproject hinner⟩
          | ok w₁ =>
            obtain ⟨outcome, more, hrest⟩ := ih (w₁.leave d) fun p hp =>
              hinner.visited_subset (List.mem_cons_of_mem _ (hsub hp))
            exact ⟨outcome, _, .visit hseen hproject hinner hrest⟩
        · exact ⟨_, _, .offend hseen hoffends⟩

/-! ### A visit from end to end -/

/-- What the projects among some files refer to. -/
def referencesOf (disk : Disk) (paths : List String) : List String :=
  paths.flatMap fun p =>
    match open? disk p with
    | .ok d => d.references
    | .error _ => []

theorem mem_referencesOf {paths : List String} {q : String} :
    q ∈ referencesOf disk paths ↔ ∃ p ∈ paths, disk.Refers p q := by
  unfold referencesOf Disk.Refers
  rw [List.mem_flatMap]
  refine exists_congr fun p => and_congr_right fun _ => ?_
  simp only [← open_eq_ok]
  cases open? disk p with
  | ok d => simp
  | error e => simp

/-- A visit with this much fuel or more comes to an end, and reads these files on the way. -/
structure Ends (disk : Disk) (root : String) (w : Walk) (fuel : Nat)
    (outcome : Except CompileError (Document × Walk)) (reads : List String) : Prop where
  visit : ∀ n, fuel ≤ n → visit disk n root w = outcome
  noted : ∀ n, fuel ≤ n → visitNoted disk n root w = (outcome, reads)
  /-- Nothing else is read: the contents of other files make no difference. -/
  alone : ∀ disk' : Disk, disk'.isFile = disk.isFile →
    (∀ p ∈ reads, disk'.read p = disk.read p) → ∀ n, fuel ≤ n →
    Walk.visit disk' n root w = outcome
  /-- It ends with a complaint about a path, if with any, and never for want of fuel. -/
  offends : ∀ e, outcome = .error e → ∃ p, disk.Offends p e
  once : reads.Nodup
  named : ∀ p ∈ reads, p = Path.forward root ∨ p ∈ referencesOf disk reads
  count : reads.length ≤ 1 + (referencesOf disk reads).dedup.length

theorem alone_of_noted {root : String} {fuel : Nat}
    {outcome : Except CompileError (Document × Walk)}
    (hnoted : ∀ n, fuel ≤ n → visitNoted disk n root w = (outcome, reads)) (disk' : Disk)
    (hfile : disk'.isFile = disk.isFile) (hread : ∀ p ∈ reads, disk'.read p = disk.read p) (n : Nat)
    (hn : fuel ≤ n) : Walk.visit disk' n root w = outcome := by
  have hsame : visitNoted disk' n root w = visitNoted disk n root w :=
    visitNoted_congr hfile (by rwa [hnoted n hn])
  rw [← visitNoted_fst, hsame, hnoted n hn]

/-- What is read behind the root is read for a reference each. -/
theorem length_le_references {root : String} (hnodup : reads.Nodup)
    (hnamed : ∀ p ∈ reads, p ∈ referencesOf disk (root :: reads)) :
    (root :: reads).length ≤ 1 + (referencesOf disk (root :: reads)).dedup.length := by
  have hsub : reads ⊆ (referencesOf disk (root :: reads)).dedup := fun p hp =>
    List.mem_dedup.2 (hnamed p hp)
  have hlength := (List.subperm_of_subset hnodup hsub).length_le
  rw [List.length_cons]
  omega

theorem visitNoted_of_offends (hoffends : disk.Offends (Path.forward r) e) (w : Walk)
    (hfuel : 0 < n) : visitNoted disk n r w = (.error e, reading disk (Path.forward r)) := by
  obtain ⟨n, rfl⟩ := Nat.exists_eq_succ_of_ne_zero (Nat.ne_of_gt hfuel)
  simp only [visitNoted, Disk.open_eq_error.2 hoffends]

theorem visitNoted_of_passes (hfiles : ∀ p, disk.isFile p = true → p ∈ files)
    (hproject : disk.IsProject (Path.forward r) d)
    (h : Passes disk d.references { w with visited := Path.forward r :: w.visited } outcome reads)
    (hfuel : files.length < n) : visitNoted disk n r w =
      (outcome.map fun w₁ => (d, w₁.leave d), Path.forward r :: reads) := by
  obtain ⟨n, rfl⟩ := Nat.exists_eq_succ_of_ne_zero (Nat.ne_zero_of_lt hfuel)
  have hrefs : ∀ q ∈ d.references, '\\' ∉ q.toList := fun q hq =>
    (hproject.folded (Path.not_mem_forward _) q (List.mem_append_right _ hq)).not_mem
  have hroot : [Path.forward r] ⊆ Path.forward r :: w.visited :=
    List.cons_subset.2 ⟨List.mem_cons_self, List.nil_subset _⟩
  have hless := Nat.lt_of_le_of_lt (unvisited_le hroot)
    (unvisited_singleton_lt (hfiles _ hproject.isFile) hfuel)
  have hinner := h.followNoted_eq hfiles hrefs hless
  simp only [visitNoted, open_eq_ok.2 hproject, hinner, reading_of_isProject hproject]
  cases outcome <;> rfl

/-- Whatever projects refer to each other, and however the root is spelled, a visit ends, and it
reads the root and what is referred to no more than once. -/
theorem exists_ends (hfiles : ∀ p, disk.isFile p = true → p ∈ files) (root : String) (w : Walk) :
    ∃ outcome reads, Ends disk root w (files.length + 1) outcome reads := by
  obtain ⟨d, hproject⟩ | ⟨e, hoffends⟩ := disk.isProject_or_offends (Path.forward root)
  · obtain ⟨outcome, reads, hpasses⟩ := exists_passes hfiles d.references
      { w with visited := Path.forward root :: w.visited }
    have hnoted := fun n hn => visitNoted_of_passes (n := n) hfiles hproject hpasses hn
    have hnamed : ∀ p ∈ reads, p ∈ referencesOf disk (Path.forward root :: reads) := by
      intro p hp
      rw [mem_referencesOf]
      rcases hpasses.named hp with href | ⟨q, hq, hrefers⟩
      · exact ⟨_, List.mem_cons_self, d, hproject, href⟩
      · exact ⟨q, List.mem_cons_of_mem _ hq, hrefers⟩
    refine ⟨_, Path.forward root :: reads, ?_, hnoted, alone_of_noted hnoted, ?_, ?_, ?_, ?_⟩
    · intro n hn
      rw [← visitNoted_fst, hnoted n hn]
    · intro e he
      cases outcome with
      | ok w₁ => cases he
      | error e' =>
        cases he
        exact hpasses.offends
    · exact List.nodup_cons.2 ⟨fun hp => hpasses.not_mem_visited hp List.mem_cons_self,
        hpasses.nodup⟩
    · exact fun p hp => (List.mem_cons.1 hp).imp_right (hnamed p)
    · exact length_le_references hpasses.nodup hnamed
  · have hnoted := fun n (hn : files.length + 1 ≤ n) =>
      visitNoted_of_offends hoffends w (Nat.lt_of_lt_of_le (Nat.succ_pos _) hn)
    refine ⟨.error e, reading disk (Path.forward root), ?_, hnoted, alone_of_noted hnoted, ?_, ?_,
      ?_, ?_⟩
    · intro n hn
      rw [← visitNoted_fst, hnoted n hn]
    · rintro _ ⟨⟩
      exact ⟨_, hoffends⟩
    · exact nodup_reading
    · exact fun p hp => .inl (mem_reading.1 hp).1
    · have hlength := length_reading_le disk (Path.forward root)
      omega

/-- Two projects that refer to each other and to themselves, one of them under two paths. -/
def knot : List (String × String) :=
  let text := "<Project><ProjectReference Include=\"B\"/><ProjectReference Include=\"A\"/></Project>"
  [("/./A", text), ("/A", text), ("/B", text)]

/-- The root is read once under the path it is given by, and once more under the path by which it is
referred to. -/
theorem exists_ends_knot :
    (∀ p, (Disk.ofFiles knot).isFile p = true → p ∈ knot.map (·.1)) ∧
    ∃ outcome, Ends (Disk.ofFiles knot) "\\.\\A" .empty 4 outcome ["/./A", "/B", "/A"] := by
  have hfiles : ∀ p, (Disk.ofFiles knot).isFile p = true → p ∈ knot.map (·.1) :=
    fun p hp => Disk.mem_of_isFile hp
  obtain ⟨outcome, reads, hends⟩ := exists_ends hfiles "\\.\\A" .empty
  have hreads : (visitNoted (Disk.ofFiles knot) 4 "\\.\\A" .empty).2 = ["/./A", "/B", "/A"] := by
    decide +kernel
  rw [hends.noted 4 (Nat.le_refl _)] at hreads
  exact ⟨hfiles, outcome, hreads ▸ hends⟩

end Walk

end WarmCompile
