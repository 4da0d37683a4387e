import WarmCompile.Proofs.Project.Walk

/-!
Where every project that can be reached is there to be read, cracking ends and gathers exactly what
the reached projects list.
-/

namespace WarmCompile

namespace Walk

variable {disk : Disk} {files : List String} {rs : List String} {w w' : Walk}

/-- The number of files that have not been visited. -/
def unvisited (files visited : List String) : Nat :=
  (files.toFinset \ visited.toFinset).card

theorem unvisited_le {visited visited' : List String} (h : visited ⊆ visited') :
    unvisited files visited' ≤ unvisited files visited := by
  apply Finset.card_le_card
  intro p hp
  rw [Finset.mem_sdiff, List.mem_toFinset, List.mem_toFinset] at hp ⊢
  exact ⟨hp.1, fun hv => hp.2 (h hv)⟩

theorem unvisited_cons_lt {visited : List String} {r : String} (hr : r ∈ files)
    (hnew : r ∉ visited) : unvisited files (r :: visited) < unvisited files visited := by
  apply Finset.card_lt_card
  rw [Finset.ssubset_iff_of_subset]
  · refine ⟨r, ?_, ?_⟩
    · rw [Finset.mem_sdiff, List.mem_toFinset, List.mem_toFinset]
      exact ⟨hr, hnew⟩
    · rw [Finset.mem_sdiff, List.mem_toFinset, List.mem_toFinset]
      exact fun h => h.2 List.mem_cons_self
  · intro p hp
    rw [Finset.mem_sdiff, List.mem_toFinset, List.mem_toFinset] at hp ⊢
    exact ⟨hp.1, fun hv => hp.2 (List.mem_cons_of_mem r hv)⟩

/-- A walk ends that has more fuel than there are files to visit, if it meets projects alone. -/
theorem exists_follow {n : Nat} (hfiles : ∀ p d, disk.IsProject p d → p ∈ files)
    (hfolded : ∀ r ∈ rs, Path.Folded r)
    (hall : ∀ r ∈ rs, ∀ p, disk.Reaches r p → ∃ d, disk.IsProject p d)
    (hfuel : unvisited files w.visited < n) : ∃ w', follow (visit disk n) rs w = .ok w' := by
  induction n generalizing rs w with
  | zero => exact absurd hfuel (Nat.not_lt_zero _)
  | succ n ihn =>
    induction rs generalizing w with
    | nil => exact ⟨w, rfl⟩
    | cons r rs ih =>
      have hfolded' := fun r' hr' => hfolded r' (List.mem_cons_of_mem r hr')
      have hall' := fun r' hr' => hall r' (List.mem_cons_of_mem r hr')
      by_cases hseen : r ∈ w.visited
      · obtain ⟨w', hfollow⟩ := ih hfolded' hall' hfuel
        exact ⟨w', by rw [follow, if_pos hseen, hfollow]⟩
      · have hr := hfolded r List.mem_cons_self
        obtain ⟨d, hproject⟩ := hall r List.mem_cons_self r .refl
        have hless := unvisited_cons_lt (hfiles r d hproject) hseen
        have hrefs : ∀ q ∈ d.references, Path.Folded q := fun q hq =>
          hproject.folded hr.not_mem q (List.mem_append_right _ hq)
        obtain ⟨w₁, hinner⟩ := ihn (w := w.enter r) hrefs
          (fun q hq p hp => hall r List.mem_cons_self p (.head ⟨d, hproject, hq⟩ hp))
          (Nat.lt_of_lt_of_le hless (Nat.le_of_lt_succ hfuel))
        have hmore := (follows_of_follow hrefs hinner).visited_subset
        have hvisit : visit disk (n + 1) r { w with references := w.references ++ [r] } =
            .ok (d, w₁.leave d) := by
          refine visit_eq_ok.2 ?_
          rw [Path.forward_of_not_mem hr.not_mem]
          exact ⟨hproject, w₁, hinner, rfl⟩
        obtain ⟨w', hfollow⟩ := ih (w := w₁.leave d) hfolded' hall'
          (Nat.lt_of_le_of_lt (unvisited_le hmore) (Nat.lt_trans hless hfuel))
        refine ⟨w', ?_⟩
        rw [follow, if_neg hseen, hvisit]
        exact hfollow

end Walk

variable {disk : Disk} {root : String}

theorem ProjectConfig.crack_eq_ok {config : ProjectConfig} {r : ResolvedProject} :
    config.crack disk = .ok r ↔ ∃ d w, Walk.visit disk disk.reach config.projectFile .empty =
      .ok (d, w) ∧ r = {
        projectFile := Path.forward config.projectFile
        sourceFiles := w.sources
        defines := Document.addNew config.compiler.defines d.defines
        targetFramework := d.targetFramework
        otherOptions := d.otherFlags
        references := w.references } := by
  constructor
  · intro h
    obtain ⟨⟨d, w⟩, hvisit, h⟩ := bind_eq_ok.1 h
    exact ⟨d, w, hvisit, (Except.ok.inj h).symm⟩
  · rintro ⟨d, w, hvisit, rfl⟩
    exact bind_eq_ok.2 ⟨(d, w), hvisit, rfl⟩

/-- A cracked project consists of what can be reached from its root. -/
structure ResolvedProject.Complete (disk : Disk) (root : String) (r : ResolvedProject) : Prop where
  sources : ∀ f, f ∈ r.sourceFiles ↔
    ∃ p d, disk.Reaches root p ∧ disk.IsProject p d ∧ f ∈ d.compileItems
  references : ∀ p, p ∈ r.references ↔ disk.Reaches root p ∧ p ≠ root
  /-- No two sources fold to the same path; there are no repetitions, then, either. -/
  sources_nodup : (r.sourceFiles.map Path.normalize).Nodup
  references_nodup : (r.references.map Path.normalize).Nodup

namespace Disk

theorem IsProject.unique {p : String} {d d' : Document} (h : disk.IsProject p d)
    (h' : disk.IsProject p d') : d = d' := by
  obtain ⟨text, hread, hparse⟩ := h.parsed
  obtain ⟨text', hread', hparse'⟩ := h'.parsed
  obtain rfl := Except.ok.inj (hread.symm.trans hread')
  exact Except.ok.inj (hparse.symm.trans hparse')

theorem Reaches.folded {p : String} (hroot : Path.Folded root) (h : disk.Reaches root p) :
    Path.Folded p := by
  induction h with
  | refl => exact hroot
  | tail hreach hrefers ih =>
    obtain ⟨d, hproject, hp⟩ := hrefers
    exact hproject.folded ih.not_mem _ (List.mem_append_right _ hp)

/-- A list of projects with all that they refer to has everything that can be reached from it. -/
theorem isProject_of_closed (projects : List (String × Document))
    (hopen : ∀ x ∈ projects, Walk.open? disk x.1 = .ok x.2)
    (hclosed : ∀ x ∈ projects, ∀ q ∈ x.2.references, q ∈ projects.map (·.1))
    (hroot : root ∈ projects.map (·.1)) {p : String} (h : disk.Reaches root p) :
    ∃ d, disk.IsProject p d := by
  have hmem : p ∈ projects.map (·.1) := by
    induction h with
    | refl => exact hroot
    | tail hreach hrefers ih =>
      obtain ⟨d, hproject, hq⟩ := hrefers
      obtain ⟨x, hx, rfl⟩ := List.mem_map.1 ih
      obtain rfl := hproject.unique (Walk.open_eq_ok.1 (hopen x hx))
      exact hclosed x hx _ hq
  obtain ⟨x, hx, rfl⟩ := List.mem_map.1 hmem
  exact ⟨x.2, Walk.open_eq_ok.1 (hopen x hx)⟩

end Disk

theorem Path.map_normalize {paths : List String} (h : ∀ p ∈ paths, Path.Folded p) :
    paths.map Path.normalize = paths :=
  (List.map_congr_left fun p hp => (h p hp).normalize_eq).trans (List.map_id paths)

section

variable {d : Document} {w : Walk} (hproject : disk.IsProject root d)
  (h : Walk.Follows disk d.references ⟨[root], [], []⟩ w)

include hproject h

theorem Walk.Follows.closed_of_root {p : String} (hp : p ∈ w.visited) :
    ∃ d', disk.IsProject p d' ∧ d'.references ⊆ w.visited ∧
      d'.compileItems ⊆ (w.leave d).sources := by
  by_cases hpr : p = root
  · subst hpr
    exact ⟨d, hproject, h.subset_visited, fun f hf => Document.mem_addNew.2 (.inr hf)⟩
  · obtain ⟨d', hd', hrefs, hitems⟩ := h.closed hp fun hmem => hpr (List.mem_singleton.1 hmem)
    exact ⟨d', hd', hrefs, fun f hf => Document.mem_addNew.2 (.inl (hitems hf))⟩

theorem Walk.Follows.mem_visited_iff {p : String} : p ∈ w.visited ↔ disk.Reaches root p := by
  constructor
  · intro hp
    obtain hp | ⟨r, hr, hreach⟩ := h.reached hp
    · obtain rfl := List.mem_singleton.1 hp
      exact .refl
    · exact .head ⟨d, hproject, hr⟩ hreach
  · intro hreach
    induction hreach with
    | refl => exact h.visited_subset List.mem_cons_self
    | tail hreach hrefers ih =>
      obtain ⟨d₁, hd₁, hq⟩ := hrefers
      obtain ⟨d₂, hd₂, hrefs, -⟩ := h.closed_of_root hproject ih
      obtain rfl := hd₁.unique hd₂
      exact hrefs hq

theorem Walk.Follows.mem_sources_iff {f : String} : f ∈ (w.leave d).sources ↔
    ∃ p d', disk.Reaches root p ∧ disk.IsProject p d' ∧ f ∈ d'.compileItems := by
  constructor
  · intro hf
    obtain hf | hf := Document.mem_addNew.1 hf
    · obtain hf | ⟨p, d', hp, hd', hf⟩ := h.gathered hf
      · exact absurd hf List.not_mem_nil
      · exact ⟨p, d', (h.mem_visited_iff hproject).1 hp, hd', hf⟩
    · exact ⟨root, d, .refl, hproject, hf⟩
  · rintro ⟨p, d₁, hreach, hd₁, hf⟩
    obtain ⟨d₂, hd₂, -, hitems⟩ := h.closed_of_root hproject ((h.mem_visited_iff hproject).2 hreach)
    obtain rfl := hd₁.unique hd₂
    exact hitems hf

end

/-- Cracking opens the root and follows what it refers to. -/
theorem ProjectConfig.follows_of_crack {config : ProjectConfig} {r : ResolvedProject}
    (h : config.crack disk = .ok r) :
    ∃ d w, disk.IsProject (Path.forward config.projectFile) d ∧
      Walk.Follows disk d.references
        { Walk.empty with visited := [Path.forward config.projectFile] } w ∧ r = {
          projectFile := Path.forward config.projectFile
          sourceFiles := (w.leave d).sources
          defines := Document.addNew config.compiler.defines d.defines
          targetFramework := d.targetFramework
          otherOptions := d.otherFlags
          references := (w.leave d).references } := by
  obtain ⟨d, w, hvisit, rfl⟩ := crack_eq_ok.1 h
  cases hreach : disk.reach with
  | zero =>
    rw [hreach] at hvisit
    cases hvisit
  | succ n =>
    rw [hreach] at hvisit
    obtain ⟨hproject, w₁, hfollow, rfl⟩ := Walk.visit_eq_ok.1 hvisit
    have hfolded := hproject.folded (Path.not_mem_forward _)
    have hfollows := Walk.follows_of_follow (fun q hq => hfolded q (List.mem_append_right _ hq))
      hfollow
    exact ⟨d, w₁, hproject, hfollows, rfl⟩

theorem ProjectConfig.mem_sources_of_crack {config : ProjectConfig} {r : ResolvedProject}
    (h : config.crack disk = .ok r) {f : String} : f ∈ r.sourceFiles ↔
      ∃ p d, disk.Reaches (Path.forward config.projectFile) p ∧ disk.IsProject p d ∧
        f ∈ d.compileItems := by
  obtain ⟨d, w₁, hproject, hfollows, rfl⟩ := follows_of_crack h
  exact hfollows.mem_sources_iff hproject

theorem ProjectConfig.nodup_sources_of_crack {config : ProjectConfig} {r : ResolvedProject}
    (h : config.crack disk = .ok r) : r.sourceFiles.Nodup := by
  obtain ⟨d, w₁, hproject, hfollows, rfl⟩ := follows_of_crack h
  exact Document.nodup_addNew (hfollows.nodup_sources List.nodup_nil)

/-- Each project that the root leads to is a reference once, but for the root itself. -/
theorem ProjectConfig.references_of_crack {config : ProjectConfig} {r : ResolvedProject}
    (h : config.crack disk = .ok r) : r.references.Nodup ∧ ∀ p, p ∈ r.references ↔
      disk.Reaches (Path.forward config.projectFile) p ∧ p ≠ Path.forward config.projectFile := by
  obtain ⟨d, w₁, hproject, hfollows, rfl⟩ := follows_of_crack h
  have hperm : w₁.visited.Perm (Path.forward config.projectFile :: w₁.references) :=
    hfollows.visited_perm [Path.forward config.projectFile] (.refl _)
  have hnodup := hperm.nodup_iff.1 (hfollows.nodup_visited (List.nodup_singleton _))
  obtain ⟨hnot, hnodup⟩ := List.nodup_cons.1 hnodup
  refine ⟨hnodup, fun p => ?_⟩
  rw [← hfollows.mem_visited_iff hproject, hperm.mem_iff, List.mem_cons]
  constructor
  · intro hp
    exact ⟨.inr hp, fun heq => hnot (heq ▸ hp)⟩
  · rintro ⟨hp, hne⟩
    exact hp.resolve_left hne

/-- Whenever cracking succeeds, the result is complete. -/
theorem ProjectConfig.complete_of_crack {config : ProjectConfig} {r : ResolvedProject}
    (hroot : Path.Folded config.projectFile) (h : config.crack disk = .ok r) :
    r.Complete disk config.projectFile := by
  obtain ⟨hnodup, hreferences⟩ := references_of_crack h
  have hsources := fun f => mem_sources_of_crack h (f := f)
  rw [Path.forward_of_not_mem hroot.not_mem] at hreferences hsources
  refine ⟨hsources, hreferences, ?_, ?_⟩
  · rw [Path.map_normalize]
    · exact nodup_sources_of_crack h
    · intro f hf
      obtain ⟨p, d', hreach, hd', hf⟩ := (hsources f).1 hf
      exact hd'.folded (hreach.folded hroot).not_mem f (List.mem_append_left _ hf)
  · rw [Path.map_normalize]
    · exact hnodup
    · exact fun p hp => ((hreferences p).1 hp).1.folded hroot

/-- If every project that can be reached from a folded root is there and can be parsed, cracking
succeeds, and the result is complete. -/
theorem ProjectConfig.crack_complete (files : List (String × String)) (config : ProjectConfig)
    (hroot : Path.normalize config.projectFile = config.projectFile)
    (hall : ∀ p, (Disk.ofFiles files).Reaches config.projectFile p →
      ∃ d, (Disk.ofFiles files).IsProject p d) :
    ∃ r, config.crack (Disk.ofFiles files) = .ok r ∧
      r.Complete (Disk.ofFiles files) config.projectFile := by
  have hfolded := Path.folded_iff.2 hroot
  have hfiles : ∀ p d, (Disk.ofFiles files).IsProject p d → p ∈ files.map (·.1) :=
    fun p d hproject => Disk.mem_of_isFile hproject.isFile
  obtain ⟨d, hproject⟩ := hall _ .refl
  have hrefs : ∀ q ∈ d.references, Path.Folded q := fun q hq =>
    hproject.folded hfolded.not_mem q (List.mem_append_right _ hq)
  have hfuel : Walk.unvisited (files.map (·.1)) [config.projectFile] < files.length := by
    calc Walk.unvisited (files.map (·.1)) [config.projectFile]
      _ < Walk.unvisited (files.map (·.1)) [] :=
        Walk.unvisited_cons_lt (hfiles _ d hproject) List.not_mem_nil
      _ ≤ (files.map (·.1)).toFinset.card := Finset.card_le_card Finset.sdiff_subset
      _ ≤ (files.map (·.1)).length := List.toFinset_card_le _
      _ = files.length := List.length_map _
  obtain ⟨w, hfollow⟩ := Walk.exists_follow (w := ⟨[config.projectFile], [], []⟩) hfiles hrefs
    (fun q hq p hp => hall p (.head ⟨d, hproject, hq⟩ hp)) hfuel
  have hcrack : config.crack (Disk.ofFiles files) = .ok _ := crack_eq_ok.2
    ⟨d, w.leave d, Walk.visit_eq_ok.2 (by
      rw [Path.forward_of_not_mem hfolded.not_mem]
      exact ⟨hproject, w, hfollow, rfl⟩), rfl⟩
  exact ⟨_, hcrack, complete_of_crack hfolded hcrack⟩

/-- Three projects that refer to each other, and one to itself, in several spellings. -/
def ring : List (String × String) :=
  [("/p/App.fsproj", "<Project><ProjectReference Include=\"..\\q\\Lib.fsproj\"/>" ++
      "<ProjectReference Include=\"/q/./Base.fsproj\"/>" ++
      "<ProjectReference Include=\"App.fsproj\"/>" ++
      "<Compile Include=\"A.fs\"/><Compile Include=\"./A.fs\"/></Project>"),
    ("/q/Lib.fsproj", "<Project><Compile Include=\"L.fs\"/>" ++
      "<ProjectReference Include=\"Base.fsproj\"/></Project>"),
    ("/q/Base.fsproj", "<Project><Compile Include=\"..//q/L.fs\"/><Compile Include=\"B.fs\"/>" ++
      "<ProjectReference Include=\"../p/App.fsproj\"/></Project>")]

def ringConfig : ProjectConfig :=
  ⟨"/p/App.fsproj", "/p", none, "/lib", "Release", true, true, false, .default⟩

theorem ProjectConfig.crack_complete_ring :
    Path.normalize ringConfig.projectFile = ringConfig.projectFile ∧
    (∀ p, (Disk.ofFiles ring).Reaches ringConfig.projectFile p →
      ∃ d, (Disk.ofFiles ring).IsProject p d) ∧
    ∃ r, ringConfig.crack (Disk.ofFiles ring) = .ok r ∧
      r.Complete (Disk.ofFiles ring) ringConfig.projectFile := by
  have hroot : Path.normalize ringConfig.projectFile = ringConfig.projectFile := by
    decide +kernel
  have hall : ∀ p, (Disk.ofFiles ring).Reaches ringConfig.projectFile p →
      ∃ d, (Disk.ofFiles ring).IsProject p d := fun p hp =>
    Disk.isProject_of_closed [
      ("/p/App.fsproj", ⟨["/p/A.fs", "/p/A.fs"],
        ["/q/Lib.fsproj", "/q/Base.fsproj", "/p/App.fsproj"], [], none, []⟩),
      ("/q/Lib.fsproj", ⟨["/q/L.fs"], ["/q/Base.fsproj"], [], none, []⟩),
      ("/q/Base.fsproj", ⟨["/q/L.fs", "/q/B.fs"], ["/p/App.fsproj"], [], none, []⟩)]
      (by decide +kernel) (by decide +kernel) (by decide +kernel) hp
  exact ⟨hroot, hall, ProjectConfig.crack_complete ring ringConfig hroot hall⟩

end WarmCompile
