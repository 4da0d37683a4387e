import WarmCompile.Proofs.Project.Named
import WarmCompile.Proofs.Project.Sequence
import WarmCompile.Proofs.Text.Blank

/-!
The symbols that a project is compiled with: those of every project, then those that the elements of
its own project file define and that are new. What other project files define does not count.
-/

namespace WarmCompile

namespace Document

open Markup (Event)

/-! ### Parts of a value -/

/-- A symbol that can stand in a list with semicolons. -/
structure Proper (define : String) : Prop where
  ne_empty : define ≠ ""
  trimmed : Text.trimmed define = define
  separate : ';' ∉ define.toList
  literal : ¬ "$(".toList <+: define.toList

theorem proper_of_mem_definesOf {value : List Char} {define : String}
    (h : define ∈ definesOf value) : Proper define := by
  obtain ⟨part, hpart, rfl⟩ := List.mem_map.1 h
  obtain ⟨hlisted, hkept⟩ := List.mem_filter.1 hpart
  obtain ⟨piece, hpiece, rfl⟩ := List.mem_map.1 hlisted
  simp only [Bool.and_eq_true, Bool.not_eq_true', List.isEmpty_eq_false_iff] at hkept
  have hchars : (String.ofList (Text.trim piece)).toList = Text.trim piece := String.toList_ofList
  constructor
  case ne_empty => exact fun he => hkept.1 (String.ofList_eq_empty_iff.1 he)
  case trimmed => rw [Text.trimmed, hchars, Text.trim_trim]
  case separate =>
    rw [hchars]
    exact fun hmem => (Path.of_mem_splitOn hpiece (Text.trim_sublist.mem hmem)).2 rfl
  case literal =>
    rw [hchars, ← List.isPrefixOf_iff_prefix, Bool.not_eq_true]
    exact hkept.2

/-! ### Elements -/

/-- The characters that an event adds to the text around it. -/
def added : Event → List Char
  | .text cs => cs
  | .reference name =>
    match Markup.resolve name with
    | .ok (some c) => [c]
    | _ => []
  | _ => []

/-- The text up to the end of an element of a property, unless another property begins before. -/
def textUpTo (p : Property) : List Event → Option (List Char)
  | [] => none
  | e :: es =>
    if closed? e = some p then some []
    else if (begun? e).isSome then none
    else (textUpTo p es).map (added e ++ ·)

/-- The texts of the elements of a property. -/
def texts (p : Property) : List Event → List (List Char)
  | [] => []
  | e :: es => if begun? e = some p then (textUpTo p es).toList ++ texts p es else texts p es

/-- The symbols that the elements of a project file define, in their order. -/
def defined (text : String) : List String :=
  (texts .defineConstants (Markup.scan text).events).flatMap definesOf

/-- The text of the element that is being read. -/
def textBehind (p : Property) (current : Option (Property × List Char)) (es : List Event) :
    List (List Char) :=
  match current with
  | some (q, value) => if q = p then ((textUpTo p es).map (value ++ ·)).toList else []
  | none => []

variable {dir text : String} {s s' : Reading} {e : Event} {es : List Event} {d : Document}
  {p : Property}

theorem textBehind_of_begun {current : Option (Property × List Char)} (h : (begun? e).isSome) :
    textBehind p current (e :: es) = [] := by
  have hclosed : closed? e = none := by
    cases e with
    | opening | empty => rfl
    | _ => cases h
  have hnone : textUpTo p (e :: es) = none := by
    rw [textUpTo, hclosed, if_neg (Option.some_ne_none _).symm, if_pos h]
  unfold textBehind
  split
  · simp [hnone]
  · rfl

theorem textBehind_of_closed {q : Property} {value : List Char} (h : closed? e = some q) :
    textBehind p (some (q, value)) (e :: es) = if q = p then [value] else [] := by
  by_cases hq : q = p
  · subst hq
    simp only [textBehind, if_true, textUpTo, h, Option.map_some, List.append_nil,
      Option.toList_some]
  · simp only [textBehind, if_neg hq]

/-- An event that neither begins nor ends a property adds its characters to what is being read. -/
theorem textBehind_cons (hbegun : begun? e = none)
    (hclosed : closed? e = none ∨ closed? e ≠ s.current.map (·.1)) :
    textBehind p s.current (e :: es) = textBehind p (s.append (added e)).current es := by
  obtain ⟨d, _ | ⟨q, value⟩⟩ := s
  · rfl
  · by_cases hq : q = p
    · subst hq
      have hne : closed? e ≠ some q := hclosed.elim (fun h => h ▸ nofun) id
      simp only [textBehind, Reading.append, Option.map_some, if_true, textUpTo, hbegun,
        if_neg hne, Option.isSome_none, Bool.false_eq_true, if_false, Option.map_map,
        Function.comp_def, List.append_assoc]
    · simp only [textBehind, Reading.append, Option.map_some, if_neg hq]

/-- Tags that begin no property define nothing. -/
theorem opened_defines {tag : List Char} (h : s.opened dir tag = .ok s')
    (hbegun : begun? (.opening tag) = none) :
    s'.document.defines = s.document.defines ∧ s'.current = s.current := by
  unfold Reading.opened at h
  dsimp only at h
  split at h
  · rename_i item _
    obtain ⟨name, -, h⟩ := bind_eq_ok.1 h
    cases item with
    | compile | reference =>
      cases h
      exact ⟨rfl, rfl⟩
  · split at h
    · rename_i p hp
      exact absurd (hbegun.symm.trans hp) (Option.some_ne_none p).symm
    · cases h
      exact ⟨rfl, rfl⟩

/-- What a step defines: nothing, unless it ends an element that defines. -/
theorem step_defines (h : s.step dir e = .ok s') (hbegun : begun? e = none)
    (hclosed : closed? e = none ∨ closed? e ≠ s.current.map (·.1)) :
    s'.document.defines = s.document.defines ∧ s'.current = (s.append (added e)).current := by
  have hnothing : (s.append []).current = s.current := by
    obtain ⟨d, _ | ⟨q, value⟩⟩ := s
    · rfl
    · simp [Reading.append]
  cases e with
  | opening tag => exact hnothing.symm ▸ opened_defines h hbegun
  | empty tag => exact hnothing.symm ▸ opened_defines h hbegun
  | text cs =>
    cases h
    exact ⟨rfl, rfl⟩
  | reference name =>
    obtain ⟨d, _ | ⟨q, value⟩⟩ := s
    · cases h
      exact ⟨rfl, rfl⟩
    · simp only [Reading.step, Reading.referred, added] at h ⊢
      cases hresolve : Markup.resolve name with
      | error f => simp [hresolve] at h
      | ok c =>
        cases c with
        | none => simp [hresolve] at h
        | some c =>
          simp only [hresolve] at h
          cases h
          exact ⟨rfl, rfl⟩
  | closing name =>
    cases h
    have hsame : s.closed name = s := by
      by_cases hcurrent : closed? (.closing name) = s.current.map (·.1)
      · have hnone := hclosed.resolve_right fun hne => hne hcurrent
        rw [hnone] at hcurrent
        unfold Reading.closed
        rw [Option.map_eq_none_iff.1 hcurrent.symm]
      · exact closed_of_ne hcurrent
    rw [hsame]
    exact ⟨rfl, hnothing.symm⟩
  | aside =>
    cases h
    exact ⟨rfl, hnothing.symm⟩

theorem run_defines (h : Reading.run dir s es = .ok s') :
    s'.document.defines = addNew s.document.defines ((textBehind .defineConstants s.current es ++
      texts .defineConstants es).flatMap definesOf) := by
  induction es generalizing s with
  | nil =>
    have hnone : textBehind .defineConstants s.current [] = [] := by
      unfold textBehind
      split
      · simp [textUpTo]
      · rfl
    cases h
    rw [hnone]
    rfl
  | cons e es ih =>
    obtain ⟨s₁, hstep, h⟩ := bind_eq_ok.1 h
    rw [ih h]
    cases hbegun : begun? e with
    | some q =>
      cases (step_of_begun hbegun s).symm.trans hstep
      rw [textBehind_of_begun (by rw [hbegun]; rfl), texts, hbegun]
      by_cases hq : q = .defineConstants
      · simp [textBehind, hq]
      · simp [textBehind, hq]
    | none =>
      have htexts : texts .defineConstants (e :: es) = texts .defineConstants es := by
        rw [texts, hbegun, if_neg (Option.some_ne_none _).symm]
      rw [htexts]
      by_cases hends : closed? e ≠ none ∧ closed? e = s.current.map (·.1)
      · -- The end of the element that is being read.
        obtain ⟨hsome, hcurrent⟩ := hends
        obtain ⟨d, _ | ⟨q, value⟩⟩ := s
        · exact absurd hcurrent hsome
        · rw [textBehind_of_closed hcurrent]
          cases e with
          | closing name =>
            have hclosed : (⟨d, some (q, value)⟩ : Reading).closed name = ⟨d.apply q value, none⟩ :=
              closed_of_eq hcurrent
            cases (congrArg Except.ok hclosed.symm).trans hstep
            by_cases hq : q = .defineConstants
            · subst hq
              rw [if_pos rfl]
              exact (addNew_append _ _ _).symm
            · have hdefines : (d.apply q value).defines = d.defines := by
                cases q <;> first | rfl | exact absurd rfl hq
              rw [if_neg hq, hdefines]
              rfl
          | _ => exact absurd rfl hsome
      · have hclosed : closed? e = none ∨ closed? e ≠ s.current.map (·.1) := by
          by_cases hnone : closed? e = none
          · exact .inl hnone
          · exact .inr fun he => hends ⟨hnone, he⟩
        obtain ⟨hdefines, hcurrent⟩ := step_defines hstep hbegun hclosed
        rw [hdefines, hcurrent, textBehind_cons hbegun hclosed]

theorem addNew_eq_filter (known names : List String) :
    addNew known names = known ++ (names.filter (· ∉ known)).eraseDups := by
  have hsame : names.removeAll known = names.filter (· ∉ known) := by
    refine List.filter_congr fun name _ => ?_
    simp
  rw [addNew_eq_append, hsame]

/-- A project file defines what its elements define, without repetitions. -/
theorem defines_of_parse (h : parse text dir = .ok d) : d.defines = addNew [] (defined text) := by
  obtain ⟨s, hrun, h⟩ := bind_eq_ok.1 h
  have hdefines := run_defines hrun
  split at h
  · cases h
  · cases h
    exact hdefines

end Document

/-! ### Cracking -/

/-- The settings that a project takes from its own project file. -/
structure ResolvedProject.SetBy (p : ResolvedProject) (text : String) : Prop where
  defines : p.defines = defaultDefines ++
    ((Document.defined text).filter (· ∉ defaultDefines)).eraseDups
  nodup : p.defines.Nodup
  proper : ∀ define ∈ p.defines, define ∉ defaultDefines → Document.Proper define

namespace ProjectConfig

variable {disk disk' : Disk} {config : ProjectConfig} {p p' : ResolvedProject}
  {project library : String}

theorem compiler_of_ofInit (h : ofInit project library = .ok config) :
    config.compiler = .default := by
  have hsome := ofInit_eq_ok.1 h
  unfold ofInit? at hsome
  dsimp only at hsome
  split at hsome
  · cases hsome
  · rw [← Option.some.inj hsome]

/-- What stands in the project file itself decides on all settings. -/
theorem settings_of_crack (h : config.crack disk = .ok p) : ∃ text d,
    disk.read (Path.forward config.projectFile) = .ok text ∧
    Document.parse text (Path.parent (Path.forward config.projectFile)) = .ok d ∧
    p.defines = Document.addNew config.compiler.defines d.defines ∧
    p.targetFramework = d.targetFramework ∧ p.otherOptions = d.otherFlags := by
  obtain ⟨d, w, hproject, -, rfl⟩ := follows_of_crack h
  obtain ⟨text, hread, hparse⟩ := hproject.parsed
  exact ⟨text, d, hread, hparse, rfl, rfl, rfl⟩

theorem settings_eq_of_read_eq (h : config.crack disk = .ok p) (h' : config.crack disk' = .ok p')
    (hread : disk'.read (Path.forward config.projectFile) =
      disk.read (Path.forward config.projectFile)) :
    p'.defines = p.defines ∧ p'.targetFramework = p.targetFramework ∧
      p'.otherOptions = p.otherOptions := by
  obtain ⟨text, d, htext, hparse, hdefines, hframework, hoptions⟩ := settings_of_crack h
  obtain ⟨text', d', htext', hparse', hdefines', hframework', hoptions'⟩ := settings_of_crack h'
  obtain rfl := Except.ok.inj (htext'.symm.trans (hread.trans htext))
  obtain rfl := Except.ok.inj (hparse'.symm.trans hparse)
  exact ⟨hdefines'.trans hdefines.symm, hframework'.trans hframework.symm,
    hoptions'.trans hoptions.symm⟩

theorem setBy_of_crack (hconfig : ofInit project library = .ok config)
    (h : config.crack disk = .ok p) :
    ∃ text, disk.read config.projectFile = .ok text ∧ p.SetBy text := by
  obtain ⟨text, d, hread, hparse, hdefines, -, -⟩ := settings_of_crack h
  rw [Path.forward_of_not_mem (of_ofInit hconfig).2] at hread
  rw [compiler_of_ofInit hconfig, Document.defines_of_parse hparse, Document.addNew_addNew]
    at hdefines
  refine ⟨text, hread, ?_⟩
  have heq : p.defines = defaultDefines ++
      ((Document.defined text).filter (· ∉ defaultDefines)).eraseDups := by
    rw [hdefines]
    exact Document.addNew_eq_filter _ _
  constructor
  case defines => exact heq
  case nodup =>
    rw [hdefines]
    exact Document.nodup_addNew (by decide)
  case proper =>
    intro define hmem hnew
    rw [heq, List.mem_append] at hmem
    have hdefined := List.mem_eraseDups.1 (hmem.resolve_left hnew)
    obtain ⟨value, -, hvalue⟩ := List.mem_flatMap.1 (List.mem_filter.1 hdefined).1
    exact Document.proper_of_mem_definesOf hvalue

end ProjectConfig

end WarmCompile
