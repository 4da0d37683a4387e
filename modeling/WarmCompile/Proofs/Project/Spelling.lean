import WarmCompile.Proofs.Host.Names
import WarmCompile.Proofs.Project.Offence

/-!
One root in several spellings. References are folded before they are compared with what has been
visited and the root is not, so a root that is not spelled as it folds is visited once more when a
reference leads back to it, and nothing else depends on its spelling.
-/

namespace WarmCompile

namespace Path

theorem ofText_eq_of_normalize {s s' : String} (hs : '\\' ∉ s.toList) (hs' : '\\' ∉ s'.toList)
    (h : normalize s = normalize s') : ofText s.toList = ofText s'.toList := by
  have hproper := proper_ofText hs
  have hproper' := proper_ofText hs'
  have hforward : ∀ {p : Path}, p.Proper → forward (String.ofList p.toText) =
      String.ofList p.toText := fun hp =>
    forward_of_not_mem (by rw [String.toList_ofList]; exact not_mem_toText hp)
  rw [normalize_eq, normalize_eq, forward_of_not_mem hs, forward_of_not_mem hs',
    hforward hproper, hforward hproper'] at h
  rw [← ofText_toText hproper, String.ofList_inj.1 h, ofText_toText hproper']

end Path

namespace Document

/-- A document depends on the directory by what names are resolved to. -/
theorem parse_congr {text dir dir' : String} (h : Path.resolve dir = Path.resolve dir') :
    parse text dir = parse text dir' := by
  have hopened : ∀ (s : Reading) tag, s.opened dir tag = s.opened dir' tag := by
    intro s tag
    simp only [Reading.opened, h]
  have hstep : ∀ (s : Reading) e, s.step dir e = s.step dir' e := by
    intro s e
    cases e with
    | opening tag => exact hopened s tag
    | empty tag => exact hopened s tag
    | text | reference | closing | aside => rfl
  have hrun : ∀ es (s : Reading), Reading.run dir s es = Reading.run dir' s es := by
    intro es
    induction es with
    | nil => exact fun s => rfl
    | cons e es ih =>
      intro s
      simp only [Reading.run, hstep, ih]
  simp only [parse, hrun]

end Document

namespace Tree

variable {t : Tree} {root s s' : String} {d : Document}

/-- An absolute path that names a file and folds to `root`. -/
structure Spells (t : Tree) (root path : String) : Prop where
  absolute : Path.isAbsolute path.toList = true
  isFile : t.isFile path = true
  folded : Path.normalize path = root

instance (t : Tree) (root path : String) : Decidable (t.Spells root path) :=
  decidable_of_iff
    (Path.isAbsolute path.toList = true ∧ t.isFile path = true ∧ Path.normalize path = root)
    ⟨fun ⟨h₁, h₂, h₃⟩ => ⟨h₁, h₂, h₃⟩, fun ⟨h₁, h₂, h₃⟩ => ⟨h₁, h₂, h₃⟩⟩

theorem resolve_parent_eq (hs : t.isFile s = true) (hs' : t.isFile s' = true)
    (hsame : Path.ofText s.toList = Path.ofText s'.toList) :
    Path.resolve (Path.parent s) = Path.resolve (Path.parent s') := by
  obtain ⟨-, there, hnames⟩ := isFile_iff_names.1 hs
  obtain ⟨-, there', hnames'⟩ := isFile_iff_names.1 hs'
  obtain ⟨base, hbase⟩ := hnames.endsWith
  obtain ⟨base', hbase'⟩ := hnames'.endsWith
  rw [hbase.ofText_eq, hbase'.ofText_eq] at hsame
  obtain ⟨hrooted, hclimbs, hnames⟩ := Path.mk.inj hsame
  have hparent : Path.ofText (Path.parent s).toList = Path.ofText (Path.parent s').toList := by
    cases hp : Path.ofText (Path.parent s).toList
    cases hp' : Path.ofText (Path.parent s').toList
    rw [hp, hp'] at hrooted hclimbs hnames
    exact Path.mk.injEq .. ▸ ⟨hrooted, hclimbs, (List.append_inj' hnames rfl).1⟩
  funext name
  simp only [Path.resolve, hparent]

/-- The same project stands at every spelling of its path. -/
theorem Spells.isProject_iff (hs : t.Spells root s) (hs' : t.Spells root s')
    (hback : '\\' ∉ s.toList) (hback' : '\\' ∉ s'.toList) :
    t.disk.IsProject s d ↔ t.disk.IsProject s' d := by
  have hsame := Path.ofText_eq_of_normalize hback hback' (hs.folded.trans hs'.folded.symm)
  have hfind : t.find? s = t.find? s' := by
    rw [← find?_normalize hback hs.isFile, hs.folded, ← hs'.folded, find?_normalize hback' hs'.isFile]
  have hread : t.disk.read s = t.disk.read s' := by
    simp only [disk, readText, readBytes, hfind]
  have hparse : ∀ text, Document.parse text (Path.parent s) =
      Document.parse text (Path.parent s') := fun text =>
    Document.parse_congr (resolve_parent_eq hs.isFile hs'.isFile hsame)
  constructor
  · rintro ⟨-, text, htext, hd⟩
    exact ⟨hs'.isFile, text, hread ▸ htext, hparse text ▸ hd⟩
  · rintro ⟨-, text, htext, hd⟩
    exact ⟨hs.isFile, text, hread ▸ htext, hparse text ▸ hd⟩

end Tree

namespace Walk

variable {disk : Disk} {rs : List String} {w w' u u' : Walk}

theorem Follows.unique (h : Follows disk rs w w') (h' : Follows disk rs w u') : w' = u' := by
  induction h generalizing u' with
  | done w =>
    cases h'
    rfl
  | skip hseen hrest ih =>
    cases h' with
    | skip hseen' hrest' => exact ih hrest'
    | visit hnew => exact absurd hseen hnew
  | visit hnew hproject hinner hrest ihinner ihrest =>
    cases h' with
    | skip hseen => exact absurd hseen hnew
    | visit hnew' hproject' hinner' hrest' =>
      obtain rfl := hproject.unique hproject'
      obtain rfl := ihinner hinner'
      exact ihrest hrest'

/-- Two walks that have gathered the same and differ in what they have visited outside of `P`. -/
structure Same (P : String → Prop) (w u : Walk) : Prop where
  visited : ∀ p, P p → (p ∈ w.visited ↔ p ∈ u.visited)
  sources : w.sources = u.sources
  references : w.references = u.references

/-- What cannot be met makes no difference. -/
theorem Follows.transfer {P : String → Prop} (hclosed : ∀ p q, P p → disk.Refers p q → P q)
    (h : Follows disk rs w w') (hrs : ∀ r ∈ rs, P r) (hsame : Same P w u) :
    ∃ u', Follows disk rs u u' ∧ Same P w' u' := by
  induction h generalizing u with
  | done w => exact ⟨u, .done u, hsame⟩
  | @skip r rs w w' hseen hrest ih =>
    obtain ⟨u', hu', hsame'⟩ := ih (fun q hq => hrs q (List.mem_cons_of_mem r hq)) hsame
    exact ⟨u', .skip ((hsame.visited r (hrs r List.mem_cons_self)).1 hseen) hu', hsame'⟩
  | @visit r rs w w₁ w' d hnew hproject hinner hrest ihinner ihrest =>
    have hr := hrs r List.mem_cons_self
    have henter : Same P (w.enter r) (u.enter r) := by
      refine ⟨fun p hp => ?_, hsame.sources, ?_⟩
      · rw [enter, enter, List.mem_cons, List.mem_cons, hsame.visited p hp]
      · rw [enter, enter, hsame.references]
    obtain ⟨u₁, hu₁, hsame₁⟩ := ihinner (fun q hq => hclosed r q hr ⟨d, hproject, hq⟩) henter
    have hleave : Same P (w₁.leave d) (u₁.leave d) := by
      refine ⟨hsame₁.visited, ?_, hsame₁.references⟩
      rw [leave, leave, hsame₁.sources]
    obtain ⟨u', hu', hsame'⟩ := ihrest (fun q hq => hrs q (List.mem_cons_of_mem r hq)) hleave
    exact ⟨u', .visit (fun h => hnew ((hsame.visited r hr).2 h)) hproject hu₁ hu', hsame'⟩

end Walk

section

variable {disk : Disk} {s s' root p : String} {c c' : ProjectConfig} {r r' : ResolvedProject}

theorem Disk.folded_of_leads (hback : '\\' ∉ s.toList)
    (h : Relation.TransGen disk.Refers s p) : Path.Folded p := by
  obtain ⟨q, ⟨d, hproject, hq⟩, hreach⟩ := Relation.TransGen.head'_iff.1 h
  exact Disk.Reaches.folded (hproject.folded hback q (List.mem_append_right _ hq)) hreach

theorem Disk.leads_congr (halike : ∀ d, disk.IsProject s d ↔ disk.IsProject s' d) :
    Relation.TransGen disk.Refers s p ↔ Relation.TransGen disk.Refers s' p := by
  simp only [Relation.TransGen.head'_iff, Refers, halike]

/-- A root that leads back to itself is a reference, if it is not spelled as it folds. -/
theorem ProjectConfig.root_mem_references (h : c.crack disk = .ok r)
    (hroot : Path.normalize (Path.forward c.projectFile) = root) :
    (∃ p ∈ r.references, Path.normalize p = root) ↔ Path.forward c.projectFile ≠ root ∧
      Relation.TransGen disk.Refers (Path.forward c.projectFile) root := by
  have hreferences := (references_of_crack h).2
  simp only [Disk.Reaches, Relation.reflTransGen_iff_eq_or_transGen] at hreferences
  constructor
  · rintro ⟨p, hp, hfold⟩
    obtain ⟨hleads, hne⟩ := (hreferences p).1 hp
    have hleads := hleads.resolve_left hne
    rw [(Disk.folded_of_leads (Path.not_mem_forward _) hleads).normalize_eq] at hfold
    subst hfold
    exact ⟨hne.symm, hleads⟩
  · rintro ⟨hne, hleads⟩
    exact ⟨root, (hreferences root).2 ⟨.inr hleads, hne.symm⟩,
      (Disk.folded_of_leads (Path.not_mem_forward _) hleads).normalize_eq⟩

section

variable (halike : ∀ d, disk.IsProject (Path.forward c.projectFile) d ↔
  disk.IsProject (Path.forward c'.projectFile) d)

include halike

theorem ProjectConfig.crack_isOk_congr (hdisk : disk.Bounded) :
    (∃ r, c.crack disk = .ok r) ↔ ∃ r, c'.crack disk = .ok r := by
  rw [crack_isOk_iff hdisk, crack_isOk_iff hdisk]
  simp only [Disk.Reaches, Relation.reflTransGen_iff_eq_or_transGen, or_imp, forall_and,
    forall_eq, halike, Disk.leads_congr halike]

variable (h : c.crack disk = .ok r) (h' : c'.crack disk = .ok r')

include h h'

theorem ProjectConfig.sources_perm_of_alike : r.sourceFiles.Perm r'.sourceFiles := by
  refine (List.perm_ext_iff_of_nodup (nodup_sources_of_crack h) (nodup_sources_of_crack h')).2
    fun f => ?_
  rw [mem_sources_of_crack h, mem_sources_of_crack h']
  simp only [Disk.Reaches, Relation.reflTransGen_iff_eq_or_transGen, or_and_right, exists_or,
    exists_and_left, exists_eq_left, halike, Disk.leads_congr halike]

/-- What the root itself says does not depend on its spelling. -/
theorem ProjectConfig.own_of_alike (hoptions : c.compiler = c'.compiler) :
    r.defines = r'.defines ∧ r.targetFramework = r'.targetFramework ∧
      r.otherOptions = r'.otherOptions := by
  obtain ⟨d, w, hproject, -, rfl⟩ := follows_of_crack h
  obtain ⟨d', w', hproject', -, rfl⟩ := follows_of_crack h'
  obtain rfl := ((halike d).1 hproject).unique hproject'
  rw [hoptions]
  exact ⟨rfl, rfl, rfl⟩

theorem ProjectConfig.walk_of_alike
    (hvisited : ∀ p, Relation.TransGen disk.Refers (Path.forward c.projectFile) p →
      (p = Path.forward c.projectFile ↔ p = Path.forward c'.projectFile)) :
    r.sourceFiles = r'.sourceFiles ∧ r.references = r'.references := by
  obtain ⟨d, w, hproject, hfollows, rfl⟩ := follows_of_crack h
  obtain ⟨d', w', hproject', hfollows', rfl⟩ := follows_of_crack h'
  obtain rfl := ((halike d).1 hproject).unique hproject'
  have hrefs : ∀ q ∈ d.references,
      Relation.TransGen disk.Refers (Path.forward c.projectFile) q := fun q hq =>
    .single ⟨d, hproject, hq⟩
  have hsame : Walk.Same (Relation.TransGen disk.Refers (Path.forward c.projectFile))
      ⟨[Path.forward c.projectFile], [], []⟩ ⟨[Path.forward c'.projectFile], [], []⟩ :=
    ⟨fun p hp => by simpa using hvisited p hp, rfl, rfl⟩
  obtain ⟨u, hu, hsame⟩ := hfollows.transfer (fun p q hp hq => hp.tail hq) hrefs hsame
  obtain rfl := hu.unique hfollows'
  exact ⟨by rw [Walk.leave, Walk.leave, hsame.sources], hsame.references⟩

end

end

/-- Two spellings of one root, in a tree without links. They succeed alike, find the same sources
and the same that the root itself says. The order of the sources and the references are the same if
and only if both are spelled as they fold or neither is, or nothing leads back to the root; and the
root is among the references if it is not spelled as it folds and something leads back to it. -/
theorem ProjectConfig.crack_of_spellings {t : Tree} {root : String} {c c' : ProjectConfig}
    (hoptions : c.compiler = c'.compiler) (hs : t.Spells root (Path.forward c.projectFile))
    (hs' : t.Spells root (Path.forward c'.projectFile)) :
    ((∃ r, c.crack t.disk = .ok r) ↔ ∃ r, c'.crack t.disk = .ok r) ∧
    ∀ r r', c.crack t.disk = .ok r → c'.crack t.disk = .ok r' →
      (r.defines = r'.defines ∧ r.targetFramework = r'.targetFramework ∧
        r.otherOptions = r'.otherOptions) ∧
      r.sourceFiles.Perm r'.sourceFiles ∧
      (r.sourceFiles = r'.sourceFiles ∧ r.references = r'.references ↔
        ((Path.forward c.projectFile = root ↔ Path.forward c'.projectFile = root) ∨
          ¬ Relation.TransGen t.disk.Refers (Path.forward c.projectFile) root)) ∧
      ((∃ p ∈ r.references, Path.normalize p = root) ↔ Path.forward c.projectFile ≠ root ∧
        Relation.TransGen t.disk.Refers (Path.forward c.projectFile) root) := by
  have halike := fun d => hs.isProject_iff hs' (Path.not_mem_forward _) (Path.not_mem_forward _)
    (d := d)
  refine ⟨crack_isOk_congr halike t.bounded_disk, fun r r' h h' => ⟨own_of_alike halike h h'
    hoptions, sources_perm_of_alike halike h h', ⟨fun hsame => ?_, fun hcases => ?_⟩,
    root_mem_references h hs.folded⟩⟩
  · have hfound := root_mem_references h hs.folded
    have hfound' := root_mem_references h' hs'.folded
    rw [hsame.2, hfound', ← Disk.leads_congr halike] at hfound
    by_cases hleads : Relation.TransGen t.disk.Refers (Path.forward c.projectFile) root
    · rw [and_iff_left hleads, and_iff_left hleads] at hfound
      exact .inl (not_iff_not.1 hfound.symm)
    · exact .inr hleads
  · refine walk_of_alike halike h h' fun p hp => ?_
    have hfolded := (Disk.folded_of_leads (Path.not_mem_forward _) hp).normalize_eq
    constructor
    · rintro rfl
      rw [hs.folded] at hfolded
      obtain hboth | hnot := hcases
      · rw [← hfolded, hboth.1 hfolded.symm]
      · exact absurd (hfolded ▸ hp) hnot
    · rintro rfl
      rw [hs'.folded] at hfolded
      obtain hboth | hnot := hcases
      · rw [← hfolded, hboth.2 hfolded.symm]
      · exact absurd (hfolded ▸ hp) hnot

/-- Two projects that refer to each other. -/
def looped : Tree where
  root := .directory [("p", .directory
    [("App.fsproj", .file ("<Project><Compile Include=\"A.fs\"/>" ++
      "<ProjectReference Include=\"Lib.fsproj\"/></Project>").toUTF8 0o644),
    ("Lib.fsproj", .file ("<Project><Compile Include=\"L.fs\"/>" ++
      "<ProjectReference Include=\"App.fsproj\"/></Project>").toUTF8 0o644)])]
  cwd := []

def loopedConfig (path : String) : ProjectConfig :=
  { ringConfig with projectFile := path }

theorem ProjectConfig.crack_looped_detour :
    (loopedConfig "/p/./App.fsproj").crack looped.disk =
      .ok ⟨"/p/./App.fsproj", ["/p/A.fs", "/p/L.fs"], defaultDefines, none, [],
        ["/p/Lib.fsproj", "/p/App.fsproj"]⟩ := by
  decide +kernel

/-- Two detours: the root is listed by both, and both list it alike. -/
theorem ProjectConfig.crack_of_spellings_looped :
    looped.Spells "/p/App.fsproj" (Path.forward (loopedConfig "/p/./App.fsproj").projectFile) ∧
    looped.Spells "/p/App.fsproj" (Path.forward (loopedConfig "/p//App.fsproj").projectFile) ∧
    ∃ r r', (loopedConfig "/p/./App.fsproj").crack looped.disk = .ok r ∧
      (loopedConfig "/p//App.fsproj").crack looped.disk = .ok r' ∧
      r.sourceFiles = r'.sourceFiles ∧ r.references = r'.references ∧
      Relation.TransGen looped.disk.Refers "/p/./App.fsproj" "/p/App.fsproj" := by
  have hs : looped.Spells "/p/App.fsproj"
      (Path.forward (loopedConfig "/p/./App.fsproj").projectFile) := by decide +kernel
  have hs' : looped.Spells "/p/App.fsproj"
      (Path.forward (loopedConfig "/p//App.fsproj").projectFile) := by decide +kernel
  have hforward : Path.forward (loopedConfig "/p/./App.fsproj").projectFile =
      "/p/./App.fsproj" := by decide +kernel
  have hforward' : Path.forward (loopedConfig "/p//App.fsproj").projectFile =
      "/p//App.fsproj" := by decide +kernel
  have hcrack := ProjectConfig.crack_looped_detour
  have hoptions : (loopedConfig "/p/./App.fsproj").compiler =
      (loopedConfig "/p//App.fsproj").compiler := rfl
  obtain ⟨hok, hboth⟩ := ProjectConfig.crack_of_spellings hoptions hs hs'
  obtain ⟨r', hcrack'⟩ := hok.1 ⟨_, hcrack⟩
  obtain ⟨-, -, hsame, hroot⟩ := hboth _ r' hcrack hcrack'
  rw [hforward, hforward'] at hsame
  rw [hforward] at hroot
  obtain ⟨hsources, hreferences⟩ := hsame.2 (.inl (iff_of_false (by decide) (by decide)))
  obtain ⟨-, hleads⟩ := hroot.1 ⟨"/p/App.fsproj", by decide, by decide +kernel⟩
  exact ⟨hs, hs', _, r', hcrack, hcrack', hsources, hreferences, hleads⟩

/-- One detour: the root is listed, and its sources come first. -/
theorem ProjectConfig.spelling_matters_looped :
    looped.Spells "/p/App.fsproj" (Path.forward (loopedConfig "/p/App.fsproj").projectFile) ∧
    looped.Spells "/p/App.fsproj" (Path.forward (loopedConfig "/p/./App.fsproj").projectFile) ∧
    ∃ r r', (loopedConfig "/p/App.fsproj").crack looped.disk = .ok r ∧
      (loopedConfig "/p/./App.fsproj").crack looped.disk = .ok r' ∧
      r.sourceFiles ≠ r'.sourceFiles ∧ r.references ≠ r'.references ∧
      "/p/App.fsproj" ∈ r'.references := by
  refine ⟨by decide +kernel, by decide +kernel,
    ⟨"/p/App.fsproj", ["/p/L.fs", "/p/A.fs"], defaultDefines, none, [], ["/p/Lib.fsproj"]⟩, _,
    by decide +kernel, crack_looped_detour, by decide, by decide, by decide⟩

end WarmCompile
