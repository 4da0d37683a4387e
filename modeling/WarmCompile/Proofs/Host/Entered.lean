import WarmCompile.Host.Machine
import WarmCompile.Proofs.Host.Names

/-!
The same path in two working directories: a folded path names the same file in both if and only if
it is absolute or they come to the same directory as far up as the path climbs.
-/

namespace WarmCompile.Tree

variable {t inside : Tree} {root : Node} {here there : List String} {dir path : String}

/-- The location some levels above another. The root is above itself. -/
def above : Nat → List String → List String
  | 0, here => here
  | n + 1, here => above n here.dropLast

theorem leads_dots (n : Nat) (h : root.IsDirectory here) :
    Leads root here (List.replicate n "..") (above n here) := by
  induction n generalizing here with
  | zero => exact .arrived here
  | succ n ih =>
    obtain ⟨entries, hhere⟩ := h
    have hparent : root.IsDirectory here.dropLast := Node.get?_dropLast hhere
    rw [List.replicate_succ]
    exact .step ⟨entries, hhere⟩ hparent.isSome (ih hparent)

/-- A directory is entered where its path leads. -/
theorem enter_eq_ok : t.enter dir = .ok inside ↔
    inside.root = t.root ∧ t.locate dir = .ok inside.cwd ∧ t.root.IsDirectory inside.cwd := by
  unfold enter
  constructor
  · intro h
    obtain ⟨here, hlocate, h⟩ := bind_eq_ok.1 h
    split at h
    · rename_i entries hhere
      cases h
      exact ⟨rfl, hlocate, entries, hhere⟩
    · cases h
    · cases h
  · rintro ⟨hroot, hlocate, entries, hhere⟩
    refine bind_eq_ok.2 ⟨inside.cwd, hlocate, ?_⟩
    rw [hhere]
    dsimp only
    rw [← hroot]
    rfl

theorem segmentsOf_folded (hfolded : Path.Folded path)
    (hne : (Path.ofText path.toList).segments ≠ []) : segmentsOf path =
      if Path.isAbsolute path.toList then "" :: (Path.ofText path.toList).segments.map String.ofList
      else (Path.ofText path.toList).segments.map String.ofList := by
  have hback := hfolded.not_mem
  have hrooted : (Path.ofText path.toList).rooted = Path.isAbsolute path.toList :=
    Path.rooted_descend _ _
  rw [← hrooted, ← segmentsOf_toText (Path.proper_ofText hback) hne, ← normalize_eq_ofText hback,
    hfolded.normalize_eq]

/-- A folded relative path names what its names lead to from as far up as it climbs. -/
theorem Names.of_folded (hfolded : Path.Folded path) (hrelative : Path.isAbsolute path.toList = false)
    (h : t.Names path there) : segmentsOf path =
      List.replicate (Path.ofText path.toList).climbs ".." ++
        (Path.ofText path.toList).names.map String.ofList ∧
    Leads t.root (above (Path.ofText path.toList).climbs t.cwd)
      ((Path.ofText path.toList).names.map String.ofList) there ∧
    there = above (Path.ofText path.toList).climbs t.cwd ++
      (Path.ofText path.toList).names.map String.ofList := by
  have hsegments : segmentsOf path = List.replicate (Path.ofText path.toList).climbs ".." ++
      (Path.ofText path.toList).names.map String.ofList := by
    rw [segmentsOf_folded hfolded (h.segments_ne_nil hfolded.not_mem), hrelative, Path.segments,
      List.map_append, List.map_replicate]
    rfl
  have hstart : t.start path = t.cwd := by
    rw [start, hrelative]
    rfl
  have hleads := h.leads
  have hdirectory := h.directory
  rw [hsegments, hstart] at hleads
  rw [hstart] at hdirectory
  obtain ⟨mid, hclimb, hdown⟩ := leads_append.1 hleads
  obtain rfl : mid = above _ t.cwd := hclimb.eq.trans (leads_dots _ hdirectory).eq.symm
  refine ⟨hsegments, hdown, ?_⟩
  exact hdown.eq.trans (foldl_advance_names (Path.proper_ofText hfolded.not_mem).names _)

/-- In another directory a folded path names the same file if and only if it is absolute, or the
two directories are below the same one as far up as the path climbs. -/
theorem names_inside_iff (hfolded : Path.Folded path) (h : t.Names path there)
    (henter : t.enter dir = .ok inside) : inside.Names path there ↔
      Path.isAbsolute path.toList = true ∨ above (Path.ofText path.toList).climbs inside.cwd =
        above (Path.ofText path.toList).climbs t.cwd := by
  obtain ⟨hroot, -, hdirectory⟩ := enter_eq_ok.1 henter
  cases habsolute : Path.isAbsolute path.toList with
  | true =>
    have hstart : inside.start path = t.start path := by rw [start, start, habsolute]; rfl
    refine iff_of_true ⟨?_, hroot ▸ h.file⟩ (.inl rfl)
    rw [hroot, hstart]
    exact h.leads
  | false =>
    obtain ⟨hsegments, hdown, hthere⟩ := h.of_folded hfolded habsolute
    constructor
    · intro hnamed
      obtain ⟨-, -, hthere'⟩ := hnamed.of_folded hfolded habsolute
      exact .inr (List.append_cancel_right (hthere'.symm.trans hthere))
    · intro hsame
      have hlevel := hsame.resolve_left Bool.false_ne_true
      have hstart : inside.start path = inside.cwd := by
        rw [start, habsolute]
        rfl
      constructor
      case file => exact hroot ▸ h.file
      case leads =>
        rw [hstart, hroot, hsegments]
        refine leads_append.2 ⟨_, leads_dots _ hdirectory, ?_⟩
        rw [hlevel]
        exact hdown

end WarmCompile.Tree
