import WarmCompile.Proofs.Path.Join
import WarmCompile.Proofs.Project.Closure

/-!
The names by which a project file lists its items, and the paths that cracking records for them.
-/

namespace WarmCompile

namespace Document

/-- The text by which an item of the kind is named where the event lists one. -/
def nameOf? (item : Item) : Markup.Event → Option String
  | .opening tag | .empty tag =>
    let name := Markup.localName (Markup.tagName tag)
    if Item.ofName? name = some item then (includeOf name tag).toOption else none
  | _ => none

/-- The texts by which a project file names its items of a kind. -/
def names (item : Item) (text : String) : List String :=
  (Markup.scan text).events.filterMap (nameOf? item)

def items (d : Document) : Item → List String
  | .compile => d.compileItems
  | .reference => d.references

variable {item : Item} {dir : String} {s s' : Reading}

theorem items_apply (d : Document) (property : Property) (value : List Char) (item : Item) :
    (d.apply property value).items item = d.items item := by
  cases property <;> cases item <;> rfl

/-- An event lists at most one item. -/
theorem items_step {e : Markup.Event} (h : s.step dir e = .ok s') :
    s'.document.items item =
      s.document.items item ++ ((nameOf? item e).map (Path.resolve dir)).toList := by
  have hopened : ∀ tag, s.opened dir tag = .ok s' → s'.document.items item =
      s.document.items item ++ ((nameOf? item (.opening tag)).map (Path.resolve dir)).toList := by
    intro tag h
    unfold Reading.opened at h
    dsimp only at h
    split at h
    · rename_i listed hlisted
      obtain ⟨name, hname, h⟩ := bind_eq_ok.1 h
      simp only [nameOf?, hlisted, Option.some.injEq, hname]
      cases listed with
      | _ =>
        cases h
        cases item <;> simp [items, Except.toOption]
    · rename_i hlisted
      have hnone : nameOf? item (.opening tag) = none := by simp [nameOf?, hlisted]
      rw [hnone, Option.map_none, Option.toList_none, List.append_nil]
      split at h <;> (cases h; rfl)
  cases e with
  | opening tag => exact hopened tag h
  | empty tag => exact hopened tag h
  | text cs =>
    cases h
    exact (List.append_nil _).symm
  | reference name =>
    have hkept : s'.document = s.document := by
      simp only [Reading.step, Reading.referred] at h
      split at h
      · cases h
        rfl
      · split at h <;> cases h
        rfl
    rw [hkept]
    exact (List.append_nil _).symm
  | closing name =>
    cases h
    have hkept : (s.closed name).document.items item = s.document.items item := by
      unfold Reading.closed
      split
      · split
        · exact items_apply _ _ _ item
        · rfl
      · rfl
    rw [hkept]
    exact (List.append_nil _).symm
  | aside =>
    cases h
    exact (List.append_nil _).symm

theorem items_run (item : Item) {es : List Markup.Event} (h : Reading.run dir s es = .ok s') :
    s'.document.items item =
      s.document.items item ++ (es.filterMap (nameOf? item)).map (Path.resolve dir) := by
  induction es generalizing s with
  | nil =>
    cases h
    exact (List.append_nil _).symm
  | cons e es ih =>
    obtain ⟨s₁, hstep, h⟩ := bind_eq_ok.1 h
    rw [ih h, items_step hstep, List.append_assoc, List.filterMap_cons]
    cases nameOf? item e <;> rfl

/-- The items of a document are its names, each resolved in the directory of the project. -/
theorem items_of_parse (item : Item) {text : String} {d : Document} (h : parse text dir = .ok d) :
    d.items item = (names item text).map (Path.resolve dir) := by
  obtain ⟨s, hrun, h⟩ := bind_eq_ok.1 h
  have hitems := items_run item hrun
  split at h
  · cases h
  · cases h
    rw [hitems]
    cases item <;> rfl

end Document

variable {project library : String} {config : ProjectConfig} {disk : Disk} {p : ResolvedProject}

theorem ProjectConfig.ofInit_eq_ok :
    ofInit project library = .ok config ↔ ofInit? project library = some config := by
  unfold ofInit
  cases ofInit? project library with
  | none => exact ⟨nofun, nofun⟩
  | some found => exact ⟨fun h => congrArg some (Except.ok.inj h),
      fun h => congrArg Except.ok (Option.some.inj h)⟩

/-- What a project path is brought to. -/
theorem ProjectConfig.of_ofInit (h : ofInit project library = .ok config) :
    config.rootDir = Path.startDir config.projectFile ∧ '\\' ∉ config.projectFile.toList := by
  have hsome := ofInit_eq_ok.1 h
  unfold ofInit? at hsome
  dsimp only at hsome
  split at hsome
  · cases hsome
  · rw [← Option.some.inj hsome]
    dsimp only
    exact ⟨rfl, Path.not_mem_forward _⟩

theorem ProjectConfig.projectFile_of_ofInit (h : ofInit project library = .ok config) :
    config.projectFile = Path.forward (Text.trimmed project) := by
  have hsome := ofInit_eq_ok.1 h
  unfold ofInit? at hsome
  dsimp only at hsome
  split at hsome
  · cases hsome
  · rw [← Option.some.inj hsome]

/-- However its root is spelled, a project that has been cracked lists folded paths. -/
theorem ProjectConfig.folded_of_crack (h : config.crack disk = .ok p) :
    ∀ f ∈ p.sourceFiles, Path.Folded f := by
  obtain ⟨d, w, hproject, hfollows, rfl⟩ := follows_of_crack h
  intro f hf
  obtain hf | hf := Document.mem_addNew.1 hf
  · obtain hf | ⟨q, d', hq, hd', hf⟩ := hfollows.gathered hf
    · exact absurd hf List.not_mem_nil
    · have hback : '\\' ∉ q.toList := by
        obtain hq | ⟨r, hr, hreach⟩ := hfollows.reached hq
        · rw [List.mem_singleton.1 hq]
          exact Path.not_mem_forward _
        · have hr' := hproject.folded (Path.not_mem_forward _) r (List.mem_append_right _ hr)
          exact (hreach.folded hr').not_mem
      exact hd'.folded hback f (List.mem_append_left _ hf)
  · exact hproject.folded (Path.not_mem_forward _) f (List.mem_append_left _ hf)

/-- The names in the root's own text are recorded as they are resolved beside it. -/
theorem ProjectConfig.recorded_of_crack (hback : '\\' ∉ config.projectFile.toList)
    (h : config.crack disk = .ok p) : ∃ text d, disk.read config.projectFile = .ok text ∧
      disk.IsProject config.projectFile d ∧
      d.compileItems =
        (Document.names .compile text).map (Path.resolve (Path.parent config.projectFile)) ∧
      d.compileItems ⊆ p.sourceFiles := by
  obtain ⟨d, w, hproject, -, rfl⟩ := follows_of_crack h
  rw [Path.forward_of_not_mem hback] at hproject
  obtain ⟨text, hread, hparse⟩ := hproject.parsed
  exact ⟨text, d, hread, hproject, Document.items_of_parse .compile hparse,
    fun f hf => Document.mem_addNew.2 (.inr hf)⟩

end WarmCompile
