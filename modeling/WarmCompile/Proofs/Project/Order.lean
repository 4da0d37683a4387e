import WarmCompile.Proofs.Project.Closure

/-!
The order of the sources: where no project leads back to itself, a project's own sources stand
behind those of every project it depends on, and a source that several projects list stands where
the first of them to be finished has put it.
-/

namespace WarmCompile

namespace Disk

variable {disk : Disk} {rs seen seen' done done' : List String}
  {order earlier later : List (String × Document)} {p q : String} {d : Document}

/-- The order in which a depth-first walk is done with the projects it meets. A project that has
been begun is not begun again. -/
inductive Finishes (disk : Disk) :
    List String → List String → List (String × Document) → List String → Prop where
  | done (seen : List String) : Finishes disk [] seen [] seen
  | skip {r : String} {rs seen seen' : List String} {order : List (String × Document)}
    (hseen : r ∈ seen) (hrest : Finishes disk rs seen order seen') :
    Finishes disk (r :: rs) seen order seen'
  | visit {r : String} {rs seen seen₁ seen' : List String} {d : Document}
    {inner rest : List (String × Document)} (hnew : r ∉ seen) (hproject : disk.IsProject r d)
    (hinner : Finishes disk d.references (r :: seen) inner seen₁)
    (hrest : Finishes disk rs seen₁ rest seen') :
    Finishes disk (r :: rs) seen (inner ++ (r, d) :: rest) seen'

namespace Finishes

theorem seen_perm (h : disk.Finishes rs seen order seen') :
    seen'.Perm (order.map (·.1) ++ seen) := by
  induction h with
  | done seen => exact .refl _
  | skip hseen hrest ih => exact ih
  | @visit r rs seen seen₁ seen' d inner rest hnew hproject hinner hrest ihinner ihrest =>
    have hmoved : (rest.map (·.1) ++ (inner.map (·.1) ++ r :: seen)).Perm
        ((inner.map (·.1) ++ r :: rest.map (·.1)) ++ seen) := by
      rw [List.perm_iff_count]
      intro x
      simp only [List.count_append, List.count_cons]
      omega
    rw [List.map_append, List.map_cons]
    exact ihrest.trans ((ihinner.append_left _).trans hmoved)

theorem mem_seen (h : disk.Finishes rs seen order seen') :
    p ∈ seen' ↔ p ∈ order.map (·.1) ∨ p ∈ seen := by
  rw [h.seen_perm.mem_iff, List.mem_append]

theorem subset_seen (h : disk.Finishes rs seen order seen') : rs ⊆ seen' := by
  induction h with
  | done seen => exact List.nil_subset _
  | skip hseen hrest ih => exact List.cons_subset.2 ⟨hrest.mem_seen.2 (.inr hseen), ih⟩
  | visit hnew hproject hinner hrest ihinner ihrest =>
    have hr := hinner.mem_seen.2 (.inr List.mem_cons_self)
    exact List.cons_subset.2 ⟨hrest.mem_seen.2 (.inr hr), ihrest⟩

theorem isProject (h : disk.Finishes rs seen order seen') : ∀ x ∈ order, disk.IsProject x.1 x.2 := by
  induction h with
  | done seen => exact nofun
  | skip hseen hrest ih => exact ih
  | visit hnew hproject hinner hrest ihinner ihrest =>
    intro x hx
    rcases List.mem_append.1 hx with hx | hx
    · exact ihinner x hx
    · rcases List.mem_cons.1 hx with rfl | hx
      · exact hproject
      · exact ihrest x hx

end Finishes

/-- Each project stands behind the projects it refers to, those that were done before included. -/
def Grounded (done : List String) : List (String × Document) → Prop
  | [] => True
  | (p, d) :: order => (∀ q ∈ d.references, q ∈ done) ∧ Grounded (p :: done) order

instance decidableGrounded : (done : List String) → (order : List (String × Document)) →
    Decidable (Grounded done order)
  | _, [] => isTrue trivial
  | done, (p, d) :: order =>
    have := decidableGrounded (p :: done) order
    inferInstanceAs (Decidable ((∀ q ∈ d.references, q ∈ done) ∧ Grounded (p :: done) order))

theorem grounded_append : Grounded done (earlier ++ later) ↔
    Grounded done earlier ∧ Grounded ((earlier.map (·.1)).reverse ++ done) later := by
  induction earlier generalizing done with
  | nil => exact ⟨fun h => ⟨trivial, h⟩, And.right⟩
  | cons x earlier ih =>
    have hdone : ((x :: earlier).map (·.1)).reverse ++ done =
        (earlier.map (·.1)).reverse ++ x.1 :: done := by simp
    rw [hdone]
    exact (and_congr_right fun _ => ih).trans and_assoc.symm

/-- The finish-time argument: what is seen already is either done, or leads to all that is still to
be followed and cannot be referred to from there. -/
theorem Finishes.grounded (h : disk.Finishes rs seen order seen')
    (hseen : ∀ p ∈ seen, p ∈ done ∨ ∀ r ∈ rs, Relation.TransGen disk.Refers p r)
    (hacyclic : ∀ r ∈ rs, ∀ p, disk.Reaches r p → ¬ Relation.TransGen disk.Refers p p) :
    Grounded done order := by
  induction h generalizing done with
  | done seen => trivial
  | skip hr hrest ih =>
    refine ih (fun p hp => ?_) fun r hr => hacyclic r (List.mem_cons_of_mem _ hr)
    exact (hseen p hp).imp_right fun hleads r hr => hleads r (List.mem_cons_of_mem _ hr)
  | @visit r rs seen seen₁ seen' d inner rest hnew hproject hinner hrest ihinner ihrest =>
    have hrefers : ∀ q ∈ d.references, disk.Refers r q := fun q hq => ⟨d, hproject, hq⟩
    have hloop := hacyclic r List.mem_cons_self r .refl
    rw [grounded_append]
    refine ⟨ihinner ?_ ?_, ?_, ihrest ?_ ?_⟩
    · intro p hp
      rcases List.mem_cons.1 hp with rfl | hp
      · exact .inr fun q hq => .single (hrefers q hq)
      · exact (hseen p hp).imp_right fun hleads q hq =>
          (hleads r List.mem_cons_self).tail (hrefers q hq)
    · intro q hq p hreach
      exact hacyclic r List.mem_cons_self p (.head (hrefers q hq) hreach)
    · intro q hq
      rw [List.mem_append, List.mem_reverse]
      rcases hinner.mem_seen.1 (hinner.subset_seen hq) with hdone | hseen'
      · exact .inl hdone
      · rcases List.mem_cons.1 hseen' with rfl | hbefore
        · exact absurd (.single (hrefers q hq)) hloop
        · rcases hseen q hbefore with hdone | hleads
          · exact .inr hdone
          · exact absurd (.head (hrefers q hq) (hleads r List.mem_cons_self)) hloop
    · intro p hp
      rw [List.mem_cons, List.mem_append, List.mem_reverse]
      rcases hinner.mem_seen.1 hp with hdone | hseen'
      · exact .inl (.inr (.inl hdone))
      · rcases List.mem_cons.1 hseen' with rfl | hbefore
        · exact .inl (.inl rfl)
        · rcases hseen p hbefore with hdone | hleads
          · exact .inl (.inr (.inr hdone))
          · exact .inr fun q hq => hleads q (List.mem_cons_of_mem _ hq)
    · exact fun q hq => hacyclic q (List.mem_cons_of_mem _ hq)

section

variable (hprojects : ∀ x ∈ order, disk.IsProject x.1 x.2) (hground : Grounded [] order)

include hprojects hground

theorem Grounded.refers_mem (hp : p ∈ order.map (·.1)) (hrefers : disk.Refers p q) :
    q ∈ order.map (·.1) := by
  obtain ⟨⟨p, d⟩, hx, rfl⟩ := List.mem_map.1 hp
  obtain ⟨d', hproject, hq⟩ := hrefers
  obtain rfl := hproject.unique (hprojects _ hx)
  obtain ⟨earlier, later, rfl⟩ := List.append_of_mem hx
  have hbefore := (grounded_append.1 hground).2.1 q hq
  rw [List.append_nil, List.mem_reverse] at hbefore
  rw [List.map_append]
  exact List.mem_append_left _ hbefore

theorem Grounded.reaches_mem (hp : p ∈ order.map (·.1)) (hreach : disk.Reaches p q) :
    q ∈ order.map (·.1) := by
  induction hreach with
  | refl => exact hp
  | tail hreach hrefers ih => exact Grounded.refers_mem hprojects hground ih hrefers

/-- All that a project depends on stands ahead of it. -/
theorem Grounded.depends_mem (horder : order = earlier ++ (p, d) :: later)
    (hdepends : Relation.TransGen disk.Refers p q) : q ∈ earlier.map (·.1) := by
  subst horder
  obtain ⟨hearlier, hrefs, -⟩ := grounded_append.1 hground
  obtain ⟨r, ⟨d', hproject, hr⟩, hreach⟩ := Relation.TransGen.head'_iff.1 hdepends
  obtain rfl := hproject.unique (hprojects _ (List.mem_append_right _ List.mem_cons_self))
  have hfirst := hrefs r hr
  rw [List.append_nil, List.mem_reverse] at hfirst
  exact Grounded.reaches_mem (fun x hx => hprojects x (List.mem_append_left _ hx)) hearlier hfirst
    hreach

theorem Grounded.acyclic (hnodup : (order.map (·.1)).Nodup) (hp : p ∈ order.map (·.1)) :
    ¬ Relation.TransGen disk.Refers p p := by
  intro hloop
  obtain ⟨⟨p, d⟩, hx, rfl⟩ := List.mem_map.1 hp
  obtain ⟨earlier, later, horder⟩ := List.append_of_mem hx
  have hbefore := Grounded.depends_mem hprojects hground horder hloop
  rw [horder, List.map_append, List.map_cons] at hnodup
  exact (List.nodup_append.1 hnodup).2.2 p hbefore p List.mem_cons_self rfl

end

end Disk

/-- The sources that some projects list, in the order of the projects. -/
def itemsOf (projects : List (String × Document)) : List String :=
  projects.flatMap (·.2.compileItems)

variable {disk : Disk} {root : String}

theorem Walk.Follows.finishes {rs : List String} {w w' : Walk} (h : Walk.Follows disk rs w w') :
    ∃ order, disk.Finishes rs w.visited order w'.visited ∧
      w'.sources = Document.addNew w.sources (itemsOf order) := by
  induction h with
  | done w => exact ⟨[], .done _, rfl⟩
  | skip hseen hrest ih =>
    obtain ⟨order, hfinishes, hsources⟩ := ih
    exact ⟨order, .skip hseen hfinishes, hsources⟩
  | @visit r rs w w₁ w' d hnew hproject hinner hrest ihinner ihrest =>
    obtain ⟨inner, hfirst, hgathered⟩ := ihinner
    obtain ⟨rest, hsecond, hsources⟩ := ihrest
    refine ⟨inner ++ (r, d) :: rest, .visit hnew hproject hfirst hsecond, ?_⟩
    have hitems : itemsOf (inner ++ (r, d) :: rest) =
        itemsOf inner ++ (d.compileItems ++ itemsOf rest) := by simp [itemsOf]
    rw [hitems, Document.addNew_append, Document.addNew_append, hsources, leave, hgathered]
    rfl

/-- The sources of a cracked project stand in an order in which they can be compiled. The projects
that the root leads to are `finished` in depth-first order. -/
structure ResolvedProject.Ordered (disk : Disk) (root : String) (r : ResolvedProject)
    (finished : List (String × Document)) : Prop where
  finishes : ∃ seen, disk.Finishes [root] [] finished seen
  projects : ∀ p d, (p, d) ∈ finished ↔ disk.Reaches root p ∧ disk.IsProject p d
  projects_nodup : (finished.map (·.1)).Nodup
  sources_nodup : r.sourceFiles.Nodup
  /-- What a project depends on is compiled ahead of what that project alone lists. -/
  dependencies : ∀ p q dp dq a b, disk.Reaches root p → Relation.TransGen disk.Refers p q →
    disk.IsProject p dp → disk.IsProject q dq → a ∈ dq.compileItems → b ∈ dp.compileItems →
    (∀ p' d', disk.Reaches root p' → disk.IsProject p' d' → b ∈ d'.compileItems → p' = p) →
    [a, b].Sublist r.sourceFiles
  /-- A project adds what is not there yet, in the order of its document. -/
  document : ∀ earlier p d later, finished = earlier ++ (p, d) :: later →
    ∃ rest, r.sourceFiles = (itemsOf earlier).eraseDups ++
      (d.compileItems.removeAll (itemsOf earlier)).eraseDups ++ rest

section

variable {r : ResolvedProject} {finished : List (String × Document)}

theorem sublist_of_depends (hprojects : ∀ p d, (p, d) ∈ finished ↔
      disk.Reaches root p ∧ disk.IsProject p d)
    (hnodup : (finished.map (·.1)).Nodup) (hground : Disk.Grounded [] finished)
    {p q a b : String} {dp dq : Document} (hreach : disk.Reaches root p)
    (hdepends : Relation.TransGen disk.Refers p q) (hp : disk.IsProject p dp)
    (hq : disk.IsProject q dq) (ha : a ∈ dq.compileItems) (hb : b ∈ dp.compileItems)
    (halone : ∀ p' d', disk.Reaches root p' → disk.IsProject p' d' → b ∈ d'.compileItems →
      p' = p) : [a, b].Sublist (itemsOf finished).eraseDups := by
  have hall : ∀ x ∈ finished, disk.IsProject x.1 x.2 := fun x hx => ((hprojects x.1 x.2).1 hx).2
  obtain ⟨earlier, later, horder⟩ := List.append_of_mem ((hprojects p dp).2 ⟨hreach, hp⟩)
  have hahead := Disk.Grounded.depends_mem hall hground horder hdepends
  have hmem : ∀ x ∈ earlier, x ∈ finished := fun x hx => horder ▸ List.mem_append_left _ hx
  have hfirst : a ∈ itemsOf earlier := by
    obtain ⟨⟨q, d⟩, hx, rfl⟩ := List.mem_map.1 hahead
    obtain rfl := hq.unique (hall _ (hmem _ hx))
    exact List.mem_flatMap.2 ⟨_, hx, ha⟩
  have hlater : b ∉ itemsOf earlier := by
    intro hb'
    obtain ⟨⟨p', d'⟩, hx, hb'⟩ := List.mem_flatMap.1 hb'
    obtain ⟨hreach', hp'⟩ := (hprojects p' d').1 (hmem _ hx)
    obtain rfl := halone p' d' hreach' hp' hb'
    rw [horder, List.map_append, List.map_cons] at hnodup
    exact (List.nodup_append.1 hnodup).2.2 p' (List.mem_map_of_mem hx) p' List.mem_cons_self rfl
  have hsplit : itemsOf finished = itemsOf earlier ++ (dp.compileItems ++ itemsOf later) := by
    rw [horder]
    simp [itemsOf]
  have hsecond : b ∈ (dp.compileItems ++ itemsOf later).removeAll (itemsOf earlier) :=
    List.mem_filter.2 ⟨List.mem_append_left _ hb, by simpa using hlater⟩
  rw [hsplit, List.eraseDups_append]
  exact (List.singleton_sublist.2 (List.mem_eraseDups.2 hfirst)).append
    (List.singleton_sublist.2 (List.mem_eraseDups.2 hsecond))

/-- Cracking finishes the projects that the root leads to, each once, and lists their sources in the
order in which they are finished. -/
theorem ProjectConfig.finishes_of_crack {config : ProjectConfig}
    (hcrack : config.crack disk = .ok r) :
    ∃ finished seen, disk.Finishes [Path.forward config.projectFile] [] finished seen ∧
      (∀ p d, (p, d) ∈ finished ↔
        disk.Reaches (Path.forward config.projectFile) p ∧ disk.IsProject p d) ∧
      (finished.map (·.1)).Nodup ∧ r.sourceFiles = (itemsOf finished).eraseDups := by
  obtain ⟨d, w₁, hproject, hfollows, rfl⟩ := follows_of_crack hcrack
  obtain ⟨order, horder, hsources⟩ := hfollows.finishes
  have hfinishes : disk.Finishes [Path.forward config.projectFile] []
      (order ++ [(Path.forward config.projectFile, d)]) w₁.visited :=
    .visit List.not_mem_nil hproject horder (.done _)
  refine ⟨_, _, hfinishes, fun p d' => ?_, ?_, ?_⟩
  · rw [← hfollows.mem_visited_iff hproject, hfinishes.mem_seen, or_iff_left List.not_mem_nil]
    constructor
    · exact fun hx => ⟨List.mem_map_of_mem hx, hfinishes.isProject _ hx⟩
    · rintro ⟨hp, hd'⟩
      obtain ⟨⟨p, d₁⟩, hx, rfl⟩ := List.mem_map.1 hp
      obtain rfl := hd'.unique (hfinishes.isProject _ hx)
      exact hx
  · have hnodup := (hfinishes.seen_perm.nodup_iff).1
      (hfollows.nodup_visited (List.nodup_singleton _))
    rwa [List.append_nil] at hnodup
  · change Document.addNew w₁.sources d.compileItems = _
    rw [hsources, ← Document.addNew_append]
    change Document.addNew [] (itemsOf order ++ d.compileItems) = _
    rw [Document.addNew_nil]
    simp [itemsOf]

/-- Cracking lists the sources of a project graph without cycles in an order in which they can be
compiled. -/
theorem ProjectConfig.ordered_of_crack {config : ProjectConfig}
    (hcrack : config.crack disk = .ok r)
    (hacyclic : ∀ p, disk.Reaches (Path.forward config.projectFile) p →
      ¬ Relation.TransGen disk.Refers p p) :
    ∃ finished, r.Ordered disk (Path.forward config.projectFile) finished := by
  obtain ⟨finished, seen, hfinishes, hprojects, hnodup, hlisted⟩ := finishes_of_crack hcrack
  have hground : Disk.Grounded [] finished := by
    refine hfinishes.grounded nofun fun root hroot p hreach => ?_
    obtain rfl := List.mem_singleton.1 hroot
    exact hacyclic p hreach
  refine ⟨finished, ⟨seen, hfinishes⟩, hprojects, hnodup, ?_, ?_, ?_⟩
  · rw [hlisted, ← Document.addNew_nil]
    exact Document.nodup_addNew List.nodup_nil
  · intro p q dp dq a b hreach hdepends hp hq ha hb halone
    rw [hlisted]
    exact sublist_of_depends hprojects hnodup hground hreach hdepends hp hq ha hb halone
  · intro earlier p d later hsplit
    have hitems : itemsOf finished = itemsOf earlier ++ d.compileItems ++ itemsOf later := by
      rw [hsplit]
      simp [itemsOf]
    rw [hlisted, hitems, List.eraseDups_append, List.eraseDups_append]
    exact ⟨_, rfl⟩

/-- Two projects with a common one below them, which is finished under the first; the references
stand behind the sources, and a shared source is listed once more at the top. -/
def diamond : List (String × String) :=
  [("/p/App.fsproj", "<Project><Compile Include=\"A.fs\"/><Compile Include=\"../q/B.fs\"/>" ++
      "<ProjectReference Include=\"../q/Left.fsproj\"/>" ++
      "<ProjectReference Include=\"../q/Right.fsproj\"/></Project>"),
    ("/q/Left.fsproj", "<Project><Compile Include=\"L.fs\"/>" ++
      "<ProjectReference Include=\"Base.fsproj\"/></Project>"),
    ("/q/Right.fsproj", "<Project><Compile Include=\"R.fs\"/>" ++
      "<ProjectReference Include=\"./Base.fsproj\"/></Project>"),
    ("/q/Base.fsproj", "<Project><Compile Include=\"B.fs\"/></Project>")]

def diamondProject : ResolvedProject :=
  ⟨"/p/App.fsproj", ["/q/B.fs", "/q/L.fs", "/q/R.fs", "/p/A.fs"], defaultDefines, none, [],
    ["/q/Left.fsproj", "/q/Base.fsproj", "/q/Right.fsproj"]⟩

theorem ProjectConfig.ordered_of_crack_diamond :
    ringConfig.crack (Disk.ofFiles diamond) = .ok diamondProject ∧
    (∀ p, (Disk.ofFiles diamond).Reaches (Path.forward ringConfig.projectFile) p →
      ¬ Relation.TransGen (Disk.ofFiles diamond).Refers p p) ∧
    ∃ finished, diamondProject.Ordered (Disk.ofFiles diamond)
      (Path.forward ringConfig.projectFile) finished := by
  have hcrack : ringConfig.crack (Disk.ofFiles diamond) = .ok diamondProject := by decide +kernel
  let projects : List (String × Document) := [
    ("/q/Base.fsproj", ⟨["/q/B.fs"], [], [], none, []⟩),
    ("/q/Left.fsproj", ⟨["/q/L.fs"], ["/q/Base.fsproj"], [], none, []⟩),
    ("/q/Right.fsproj", ⟨["/q/R.fs"], ["/q/Base.fsproj"], [], none, []⟩),
    ("/p/App.fsproj", ⟨["/p/A.fs", "/q/B.fs"], ["/q/Left.fsproj", "/q/Right.fsproj"], [], none,
      []⟩)]
  have hopen : ∀ x ∈ projects, Walk.open? (Disk.ofFiles diamond) x.1 = .ok x.2 := by
    decide +kernel
  have hprojects : ∀ x ∈ projects, (Disk.ofFiles diamond).IsProject x.1 x.2 := fun x hx =>
    Walk.open_eq_ok.1 (hopen x hx)
  have hground : Disk.Grounded [] projects := by decide +kernel
  have hacyclic : ∀ p, (Disk.ofFiles diamond).Reaches (Path.forward ringConfig.projectFile) p →
      ¬ Relation.TransGen (Disk.ofFiles diamond).Refers p p := by
    intro p hreach
    have hp := Disk.Grounded.reaches_mem hprojects hground (by decide +kernel) hreach
    exact Disk.Grounded.acyclic hprojects hground (by decide +kernel) hp
  exact ⟨hcrack, hacyclic, ProjectConfig.ordered_of_crack hcrack hacyclic⟩

end

end WarmCompile
