import WarmCompile.Proofs.Host.Tree
import WarmCompile.Proofs.Path.Absolute
import WarmCompile.Proofs.Path.Length

/-!
Which file a path names in a tree: folding a path keeps the file that it names, and the folded texts
of absolute paths tell files apart.
-/

namespace WarmCompile

/-- There is a directory at a location. -/
def Node.IsDirectory (root : Node) (here : List String) : Prop :=
  ∃ entries, root.get? here = some (.directory entries)

/-- There is a file at a location. -/
def Node.IsFile (root : Node) (here : List String) : Prop :=
  ∃ content mode, root.get? here = some (.file content mode)

theorem Node.IsDirectory.isSome {root : Node} {here : List String} (h : root.IsDirectory here) :
    (root.get? here).isSome := by
  obtain ⟨entries, hdirectory⟩ := h
  exact hdirectory ▸ rfl

theorem Node.IsFile.not_isDirectory {root : Node} {here : List String} (h : root.IsFile here) :
    ¬ root.IsDirectory here := by
  obtain ⟨content, mode, hfile⟩ := h
  rintro ⟨entries, hdirectory⟩
  cases hfile.symm.trans hdirectory

namespace Tree

variable {t : Tree} {root : Node} {base here there : List String} {segments more : List String}
  {segment path path' : String}

/-- Segments lead from one location to another if there is a directory wherever a step is taken, and
something at the end of the step. -/
inductive Leads (root : Node) : List String → List String → List String → Prop where
  | arrived (here : List String) : Leads root here [] here
  | step {here there segments : List String} {segment : String} (hdirectory : root.IsDirectory here)
    (hentry : (root.get? (advance here segment)).isSome)
    (hrest : Leads root (advance here segment) segments there) :
    Leads root here (segment :: segments) there

/-- Where a path starts from. -/
def start (t : Tree) (path : String) : List String :=
  if Path.isAbsolute path.toList then [] else t.cwd

/-- A path names the file at a location. -/
structure Names (t : Tree) (path : String) (there : List String) : Prop where
  leads : Leads t.root (t.start path) (segmentsOf path) there
  file : t.root.IsFile there

/-! ### Leading somewhere -/

theorem Leads.eq (h : Leads root here segments there) : there = segments.foldl advance here := by
  induction h with
  | arrived here => rfl
  | step hdirectory hentry hrest ih => exact ih

theorem leads_append : Leads root here (segments ++ more) there ↔
    ∃ mid, Leads root here segments mid ∧ Leads root mid more there := by
  constructor
  · intro h
    induction segments generalizing here with
    | nil => exact ⟨here, .arrived here, h⟩
    | cons segment segments ih =>
      cases h with
      | step hdirectory hentry hrest =>
        obtain ⟨mid, hfirst, hlast⟩ := ih hrest
        exact ⟨mid, .step hdirectory hentry hfirst, hlast⟩
  · rintro ⟨mid, hfirst, hlast⟩
    induction hfirst with
    | arrived here => exact hlast
    | step hdirectory hentry hrest ih => exact .step hdirectory hentry (ih hlast)

theorem Leads.directory (h : Leads root here segments there) (hne : segments ≠ []) :
    root.IsDirectory here := by
  cases h with
  | arrived here => exact absurd rfl hne
  | step hdirectory hentry hrest => exact hdirectory

theorem advance_name {name : List Char} (h : Path.IsName name) (here : List String) :
    advance here (String.ofList name) = here ++ [String.ofList name] := by
  have hne : ∀ special : List Char, name ≠ special → String.ofList name ≠ String.ofList special :=
    fun special hspecial heq => hspecial (String.ofList_inj.1 heq)
  have hdot : ¬ (String.ofList name = "." ∨ String.ofList name = "") := by
    rintro (hdot | hnil)
    · exact hne ['.'] h.ne_dot hdot
    · exact hne [] h.ne_nil hnil
  rw [advance, if_neg hdot, if_neg (hne ['.', '.'] h.ne_dots)]

/-- Wherever segments lead, so does the path that they fold to. -/
theorem Leads.child {p : Path} (hp : p.Proper) (hroot : p.rooted = true → base = [])
    {segment : List Char} (h : Leads root base (p.segments.map String.ofList) here)
    (hdirectory : root.IsDirectory here)
    (hentry : (root.get? (advance here (String.ofList segment))).isSome) :
    Leads root base ((p.child segment).segments.map String.ofList)
      (advance here (String.ofList segment)) := by
  rcases Path.child_cases p segment with ⟨hchild, hstays⟩ | hchild | ⟨hdots, names, name, hnames, hchild⟩
  · have hhere : advance here (String.ofList segment) = here := by
      rcases hstays with rfl | rfl | ⟨rfl, hrooted, hnames⟩
      · rfl
      · rfl
      · -- Nothing has been added to the root, which is its own parent.
        have hsegments : p.segments = [] := by
          rw [Path.segments, hp.level hrooted, hnames]
          rfl
        rw [hsegments] at h
        cases h with
        | arrived => rw [hroot hrooted]; rfl
    rw [hchild, hhere]
    exact h
  · rw [hchild, List.map_append]
    exact leads_append.2 ⟨here, h, .step hdirectory hentry (.arrived _)⟩
  · have hsegments : p.segments = (p.child segment).segments ++ [name] := by
      rw [hchild, Path.segments, Path.segments, hnames, List.append_assoc]
    have hname : Path.IsName name :=
      hp.names name (hnames ▸ List.mem_append_right _ List.mem_cons_self)
    rw [hsegments, List.map_append] at h
    obtain ⟨mid, hfirst, hlast⟩ := leads_append.1 h
    have hback : advance here (String.ofList segment) = mid := by
      rw [hlast.eq, hdots]
      change (advance mid (String.ofList name)).dropLast = mid
      rw [advance_name hname, List.dropLast_concat]
    rw [hback]
    exact hfirst

theorem Leads.foldl {p : Path} (hp : p.Proper) (hroot : p.rooted = true → base = [])
    (h : Leads root base (p.segments.map String.ofList) here) {texts : List (List Char)}
    (htexts : ∀ s ∈ texts, '/' ∉ s ∧ '\\' ∉ s)
    (hmore : Leads root here (texts.map String.ofList) there) :
    Leads root base ((texts.foldl Path.child p).segments.map String.ofList) there := by
  induction texts generalizing p here with
  | nil =>
    cases hmore with
    | arrived => exact h
  | cons s texts ih =>
    cases hmore with
    | step hdirectory hentry hrest =>
      obtain ⟨hslash, hback⟩ := htexts s List.mem_cons_self
      apply ih (Path.proper_child hp hslash hback) _ (h.child hp hroot hdirectory hentry) _ hrest
      · rw [Path.rooted_child]
        exact hroot
      · exact fun s' hs' => htexts s' (List.mem_cons_of_mem s hs')

/-! ### Naming files -/

theorem segmentsOf_ne_nil (path : String) : segmentsOf path ≠ [] := by
  intro h
  exact List.splitOn_ne_nil '/' path.toList (List.map_eq_nil_iff.1 h)

theorem Names.directory (h : t.Names path there) : t.root.IsDirectory (t.start path) :=
  h.leads.directory (segmentsOf_ne_nil path)

/-- The segments of the folded path lead to the file. -/
theorem Names.leads_ofText (hback : '\\' ∉ path.toList) (h : t.Names path there) :
    Leads t.root (t.start path) ((Path.ofText path.toList).segments.map String.ofList) there := by
  have hroot : Path.isAbsolute path.toList = true → t.start path = [] := fun h => if_pos h
  apply Leads.foldl (p := ⟨Path.isAbsolute path.toList, 0, []⟩) _ hroot (.arrived _) _ h.leads
  · exact ⟨fun _ => rfl, fun _ hn => absurd hn List.not_mem_nil⟩
  · intro s hs
    exact ⟨fun hc => (Path.of_mem_splitOn hs hc).2 rfl, fun hc => hback (Path.of_mem_splitOn hs hc).1⟩

theorem segmentsOf_toText {p : Path} (hp : p.Proper) (hne : p.segments ≠ []) :
    segmentsOf (String.ofList p.toText) =
      if p.rooted then "" :: p.segments.map String.ofList else p.segments.map String.ofList := by
  have hsplit : (['/'].intercalate p.segments).splitOn '/' = p.segments :=
    List.splitOn_intercalate '/' (fun s hs => (Path.segments_of_proper hp s hs).2.1) hne
  rw [segmentsOf, String.toList_ofList, Path.toText]
  split
  · rw [List.splitOn_cons_eq_if_modifyHead, hsplit]
    rfl
  · rw [hsplit]

theorem start_normalize (hback : '\\' ∉ path.toList) :
    t.start (Path.normalize path) = t.start path := by
  rw [start, start, Path.isAbsolute_normalize, Path.forward_of_not_mem hback]

theorem normalize_eq_ofText (hback : '\\' ∉ path.toList) :
    Path.normalize path = String.ofList (Path.ofText path.toList).toText := by
  rw [← String.ofList_toList (s := Path.normalize path), Path.toList_normalize,
    Path.forward_of_not_mem hback]

/-- A path that names a file does not fold to the place where it starts. -/
theorem Names.segments_ne_nil (hback : '\\' ∉ path.toList) (h : t.Names path there) :
    (Path.ofText path.toList).segments ≠ [] := by
  intro hnil
  have hleads := h.leads_ofText hback
  rw [hnil] at hleads
  cases hleads with
  | arrived => exact h.file.not_isDirectory h.directory

/-- The folded path names the same file. -/
theorem Names.normalize (hback : '\\' ∉ path.toList) (h : t.Names path there) :
    t.Names (Path.normalize path) there := by
  have hproper := Path.proper_ofText hback
  have hleads := h.leads_ofText hback
  constructor
  case file => exact h.file
  case leads =>
    rw [start_normalize hback, normalize_eq_ofText hback,
      segmentsOf_toText hproper (h.segments_ne_nil hback)]
    split
    · -- An absolute path begins with an empty segment, which leads from the root to the root.
      exact .step h.directory h.directory.isSome hleads
    · exact hleads

/-- At the end of what leads anywhere there is a directory, if the last segment is no name. -/
theorem Leads.directory_of_last {segment : String} (hlast : segment = "." ∨ segment = "" ∨ segment = "..")
    (h : Leads root here (segments ++ [segment]) there) : root.IsDirectory there := by
  obtain ⟨mid, -, hstep⟩ := leads_append.1 h
  have hthere : there = advance mid segment := hstep.eq
  have hmid := hstep.directory (List.cons_ne_nil _ _)
  rw [hthere]
  rcases hlast with rfl | rfl | rfl
  · exact hmid
  · exact hmid
  · obtain ⟨entries, hget⟩ := hmid
    exact Node.get?_dropLast hget

/-- The last segment of a path that names a file is a name. -/
theorem Names.endsWith (h : t.Names path there) : ∃ base, Path.EndsWith path base := by
  have hends : ∃ (segments : List String) (base : List Char), '/' ∉ base ∧
      segmentsOf path = segments ++ [String.ofList base] ∧
      (path.toList = base ∨ ∃ front, path.toList = front ++ '/' :: base) := by
    obtain hnone | ⟨front, base, hpath, hbase⟩ := Path.base_cases path.toList
    · exact ⟨[], path.toList, hnone, by rw [segmentsOf, List.splitOn_eq_singleton hnone]; rfl, .inl rfl⟩
    · refine ⟨(front.splitOn '/').map String.ofList, base, hbase, ?_, .inr ⟨front, hpath⟩⟩
      rw [segmentsOf, hpath, List.splitOn_append_cons_of_beq _ _ (beq_self_eq_true _),
        List.splitOn_eq_singleton hbase, List.map_append]
      rfl
  obtain ⟨segments, base, hbase, hsegments, hending⟩ := hends
  have hleads := h.leads
  rw [hsegments] at hleads
  have hname : ∀ special, special = "." ∨ special = "" ∨ special = ".." → base ≠ special.toList := by
    rintro special hspecial rfl
    rw [String.ofList_toList] at hleads
    exact h.file.not_isDirectory (hleads.directory_of_last hspecial)
  exact ⟨base, ⟨hname "" (.inr (.inl rfl)), hbase⟩, hname "." (.inl rfl),
    hname ".." (.inr (.inr rfl)), hending⟩

/-- Paths that start from the same place and have the same segments lead to the same place. -/
theorem Names.unique (h : t.Names path there) {there' : List String} (h' : t.Names path there') :
    there = there' :=
  h.leads.eq.trans h'.leads.eq.symm

theorem foldl_advance_names {names : List (List Char)} (h : ∀ n ∈ names, Path.IsName n)
    (here : List String) :
    (names.map String.ofList).foldl advance here = here ++ names.map String.ofList := by
  induction names generalizing here with
  | nil => exact (List.append_nil here).symm
  | cons name names ih =>
    rw [List.map_cons, List.foldl_cons, advance_name (h name List.mem_cons_self),
      ih fun n hn => h n (List.mem_cons_of_mem name hn), List.append_assoc]
    rfl

/-- The file that an absolute path names lies where the names of the folded path say. -/
theorem Names.eq_names (hback : '\\' ∉ path.toList) (habsolute : Path.isAbsolute path.toList = true)
    (h : t.Names path there) : there = (Path.ofText path.toList).names.map String.ofList := by
  have hproper := Path.proper_ofText hback
  have hrooted : (Path.ofText path.toList).rooted = true := by
    rw [Path.ofText, Path.rooted_descend]
    exact habsolute
  have hleads := (h.leads_ofText hback).eq
  rw [Path.segments, hproper.level hrooted, start, if_pos habsolute] at hleads
  exact hleads.trans (foldl_advance_names hproper.names [])

/-- The folded texts of absolute paths tell files apart. -/
theorem Names.normalize_eq_iff {there' : List String} (hback : '\\' ∉ path.toList)
    (hback' : '\\' ∉ path'.toList) (habsolute : Path.isAbsolute path.toList = true)
    (habsolute' : Path.isAbsolute path'.toList = true) (h : t.Names path there)
    (h' : t.Names path' there') : Path.normalize path = Path.normalize path' ↔ there = there' := by
  constructor
  · intro hsame
    have hnamed := h.normalize hback
    rw [hsame] at hnamed
    exact hnamed.unique (h'.normalize hback')
  · intro hsame
    have hrooted : ∀ {text}, Path.isAbsolute text = true → '\\' ∉ text →
        Path.ofText text = ⟨true, 0, (Path.ofText text).names⟩ := by
      intro text habsolute hback
      have hroot : (Path.ofText text).rooted = true := (Path.rooted_descend _ _).trans habsolute
      rw [← hroot, ← (Path.proper_ofText hback).level hroot]
    have hnames : (Path.ofText path.toList).names = (Path.ofText path'.toList).names := by
      apply List.map_injective_iff.2 fun _ _ => String.ofList_inj.1
      rw [← h.eq_names hback habsolute, ← h'.eq_names hback' habsolute', hsame]
    rw [normalize_eq_ofText hback, normalize_eq_ofText hback', hrooted habsolute hback,
      hrooted habsolute' hback', hnames]

/-! ### The limits of a system -/

/-- A path that a system looks at: neither the path nor any of its segments is too long. -/
structure Fits (path : String) : Prop where
  nul : '\x00' ∉ path.toList
  ne_empty : path ≠ ""
  size : path.utf8ByteSize < pathLimit
  names : ∀ s ∈ segmentsOf path, s.utf8ByteSize ≤ nameLimit

theorem get?_concat {entries : List (String × Node)} (h : root.get? here = some (.directory entries))
    (name : String) : root.get? (here ++ [name]) = entries.lookup name := by
  rw [Node.get?_append, h]
  change (entries.lookup name).bind some = _
  exact Option.bind_fun_some _

/-- What it takes to walk one step. -/
theorem walk_cons_eq_ok_iff : walk root here (segment :: segments) = .ok there ↔
    root.IsDirectory here ∧ (root.get? (advance here segment)).isSome ∧
      segment.utf8ByteSize ≤ nameLimit ∧ walk root (advance here segment) segments = .ok there := by
  cases hhere : root.get? here with
  | none => simp [walk, Node.IsDirectory, hhere]
  | some node =>
    cases node with
    | file => simp [walk, Node.IsDirectory, hhere]
    | socket => simp [walk, Node.IsDirectory, hhere]
    | directory entries =>
      have hdirectory : root.IsDirectory here := ⟨entries, hhere⟩
      simp only [walk, hhere, advance]
      split
      · rename_i hdot
        have hshort : segment.utf8ByteSize ≤ nameLimit := by
          rcases hdot with rfl | rfl <;> decide
        simp [hdirectory, hhere, hshort]
      · split
        · rename_i hdots
          obtain ⟨above, habove⟩ := Node.get?_dropLast hhere
          have hshort : segment.utf8ByteSize ≤ nameLimit := hdots ▸ by decide
          simp [hdirectory, habove, hshort]
        · rw [get?_concat hhere]
          split
          · rename_i hlong
            simp [Nat.not_le_of_lt hlong]
          · rename_i hshort
            cases entries.lookup segment with
            | none => simp
            | some node => simp [hdirectory, Nat.le_of_not_lt hshort]

/-- A walk gets along if and only if its segments lead there and none of them is too long. -/
theorem walk_eq_ok_iff : walk root here segments = .ok there ↔
    Leads root here segments there ∧ ∀ s ∈ segments, s.utf8ByteSize ≤ nameLimit := by
  induction segments generalizing here with
  | nil =>
    constructor
    · intro h
      cases h
      exact ⟨.arrived _, nofun⟩
    · rintro ⟨h, -⟩
      cases h
      rfl
  | cons segment segments ih =>
    rw [walk_cons_eq_ok_iff, ih, List.forall_mem_cons]
    constructor
    · rintro ⟨hdirectory, hentry, hshort, hleads, hrest⟩
      exact ⟨.step hdirectory hentry hleads, hshort, hrest⟩
    · rintro ⟨hleads, hshort, hrest⟩
      cases hleads with
      | step hdirectory hentry hleads => exact ⟨hdirectory, hentry, hshort, hleads, hrest⟩

/-- The segments of a path begin with an empty one, which is not the only one, if and only if the
path is absolute. -/
theorem segmentsOf_cases (hne : path ≠ "") :
    (Path.isAbsolute path.toList = true ∧ ∃ rest, rest ≠ [] ∧ segmentsOf path = "" :: rest) ∨
    (Path.isAbsolute path.toList = false ∧ ∃ s rest, s ≠ "" ∧ segmentsOf path = s :: rest) := by
  have hcons : path.toList ≠ [] := fun h => hne (String.toList_inj.1 h)
  obtain ⟨c, cs, hpath⟩ := List.exists_cons_of_ne_nil hcons
  obtain ⟨first, rest, hsplit⟩ := List.exists_cons_of_ne_nil (List.splitOn_ne_nil '/' cs)
  rw [segmentsOf, hpath, List.splitOn_cons_eq_if_modifyHead, hsplit]
  split
  · rename_i hc
    left
    exact ⟨by rw [Path.isAbsolute, List.head?_cons]; simpa using hc, _, List.cons_ne_nil _ _, rfl⟩
  · rename_i hc
    right
    have hfirst : String.ofList (c :: first) ≠ "" := fun h =>
      List.cons_ne_nil c first (String.ofList_inj.1 h)
    exact ⟨by rw [Path.isAbsolute, List.head?_cons]; simpa using hc, _, _, hfirst, rfl⟩

/-- Once a path may be looked at, it is walked along from where it starts. -/
theorem locate_eq_walk (hnul : '\x00' ∉ path.toList) (hne : path ≠ "")
    (hsize : path.utf8ByteSize < pathLimit) : t.locate path = .ok there ↔
      walk t.root (t.start path) (segmentsOf path) = .ok there := by
  have hcontains : path.toList.contains '\x00' = false := by simpa using hnul
  have hempty : path.isEmpty = false := by simpa using hne
  simp only [locate, hcontains, hempty, Nat.not_le_of_lt hsize]
  obtain ⟨habsolute, rest, hrest, hsegments⟩ | ⟨hrelative, s, rest, hs, hsegments⟩ :=
    segmentsOf_cases hne
  · rw [hsegments, start, if_pos habsolute, walk_cons_eq_ok_iff]
    obtain ⟨first, rest, rfl⟩ := List.exists_cons_of_ne_nil hrest
    change walk t.root [] (first :: rest) = .ok there ↔ _
    constructor
    · intro h
      have hdirectory := (walk_cons_eq_ok_iff.1 h).1
      exact ⟨hdirectory, hdirectory.isSome, by decide, h⟩
    · exact fun h => h.2.2.2
  · rw [hsegments, start, hrelative]
    simp [hs]

/-- A system finds what the segments of a path lead to, if the path is within its limits. -/
theorem locate_eq_ok_iff : t.locate path = .ok there ↔
    Fits path ∧ Leads t.root (t.start path) (segmentsOf path) there := by
  constructor
  · intro h
    have hlooked := h
    unfold locate at hlooked
    split at hlooked
    · cases hlooked
    · rename_i hnul
      split at hlooked
      · cases hlooked
      · rename_i hne
        split at hlooked
        · cases hlooked
        · rename_i hsize
          have hnul : '\x00' ∉ path.toList := by simpa using hnul
          have hne : path ≠ "" := by simpa using hne
          have hsize := Nat.lt_of_not_le hsize
          obtain ⟨hleads, hnames⟩ := walk_eq_ok_iff.1 ((locate_eq_walk hnul hne hsize).1 h)
          exact ⟨⟨hnul, hne, hsize, hnames⟩, hleads⟩
  · rintro ⟨hfits, hleads⟩
    exact (locate_eq_walk hfits.nul hfits.ne_empty hfits.size).2
      (walk_eq_ok_iff.2 ⟨hleads, hfits.names⟩)

/-- The folded path is within the limits if the path is. -/
theorem Fits.normalize (hback : '\\' ∉ path.toList) (hfits : Fits path)
    (hsegments : (Path.ofText path.toList).segments ≠ []) : Fits (Path.normalize path) := by
  have hproper := Path.proper_ofText hback
  have hkept : ∀ s ∈ segmentsOf (Path.normalize path), s = "" ∨ s ∈ segmentsOf path := by
    have hfolded : ∀ s ∈ (Path.ofText path.toList).segments.map String.ofList, s ∈ segmentsOf path := by
      intro s hs
      obtain ⟨text, htext, rfl⟩ := List.mem_map.1 hs
      exact List.mem_map_of_mem (Path.mem_segments_ofText htext)
    intro s hs
    rw [normalize_eq_ofText hback, segmentsOf_toText hproper hsegments] at hs
    split at hs
    · rcases List.mem_cons.1 hs with rfl | hs
      · exact .inl rfl
      · exact .inr (hfolded s hs)
    · exact .inr (hfolded s hs)
  constructor
  case nul =>
    intro hnul
    rw [normalize_eq_ofText hback, String.toList_ofList] at hnul
    obtain hslash | ⟨s, hs, hc⟩ := Path.mem_toText hnul
    · exact absurd hslash (by decide)
    · exact hfits.nul (Path.of_mem_splitOn (Path.mem_segments_ofText hs) hc).1
  case ne_empty =>
    intro hempty
    rw [normalize_eq_ofText hback] at hempty
    have hpieces := Path.pieces_toText hproper
    rw [String.ofList_inj.1 hempty] at hpieces
    exact hsegments hpieces.symm
  case size =>
    rw [normalize_eq_ofText hback, String.utf8ByteSize_ofList]
    have hpath : path.utf8ByteSize = String.utf8Len path.toList := by
      rw [← String.utf8ByteSize_ofList, String.ofList_toList]
    exact Nat.lt_of_le_of_lt (hpath ▸ Path.utf8Len_toText_le path.toList) hfits.size
  case names =>
    intro s hs
    rcases hkept s hs with rfl | hs
    · decide
    · exact hfits.names s hs

/-- A path at which a system finds a file names the file. -/
theorem isFile_iff_names : t.isFile path = true ↔ Fits path ∧ ∃ there, t.Names path there := by
  rw [isFile_iff]
  constructor
  · rintro ⟨there, content, mode, hlocate, hget⟩
    obtain ⟨hfits, hleads⟩ := locate_eq_ok_iff.1 hlocate
    exact ⟨hfits, there, hleads, content, mode, hget⟩
  · rintro ⟨hfits, there, hleads, content, mode, hget⟩
    exact ⟨there, content, mode, locate_eq_ok_iff.2 ⟨hfits, hleads⟩, hget⟩

theorem names_of_locate (h : t.locate path = .ok there) (hfile : t.root.IsFile there) :
    t.Names path there :=
  ⟨(locate_eq_ok_iff.1 h).2, hfile⟩

/-- What a system finds at a path that names a file it finds at the folded path. -/
theorem find?_normalize (hback : '\\' ∉ path.toList) (h : t.isFile path = true) :
    t.find? (Path.normalize path) = t.find? path := by
  obtain ⟨hfits, there, hnames⟩ := isFile_iff_names.1 h
  have hfolded := hnames.normalize hback
  have hpath : t.locate path = .ok there := locate_eq_ok_iff.2 ⟨hfits, hnames.leads⟩
  have hnormal : t.locate (Path.normalize path) = .ok there :=
    locate_eq_ok_iff.2 ⟨hfits.normalize hback (hnames.segments_ne_nil hback), hfolded.leads⟩
  rw [find?, find?, hpath, hnormal]

/-- Folding keeps the file that a path names, for the tree as such and for a system with limits, and
the folded texts of absolute paths are the same if and only if the files are. -/
theorem names_normalize (t : Tree) {path : String} {there : List String}
    (hback : '\\' ∉ path.toList) (h : t.Names path there) :
    t.Names (Path.normalize path) there ∧
    (t.isFile path = true → t.find? (Path.normalize path) = t.find? path) ∧
    ∀ (path' : String) (there' : List String), '\\' ∉ path'.toList → t.Names path' there' →
      Path.isAbsolute path.toList = true → Path.isAbsolute path'.toList = true →
      (Path.normalize path = Path.normalize path' ↔ there = there') := by
  constructor
  · exact h.normalize hback
  · constructor
    · exact find?_normalize hback
    · intro path' there' hback' h' habsolute habsolute'
      exact h.normalize_eq_iff hback hback' habsolute habsolute' h'

/-- Two files of one name, seen from a directory between them. -/
def nested : Tree where
  root := .directory [("w", .directory [
    ("lib", .emptyDirectory),
    ("A.fs", .file .empty 0o644),
    ("src", .directory [("A.fs", .file .empty 0o644)])])]
  cwd := ["w", "lib"]

theorem names_normalize_nested :
    nested.Names "../../../w/lib/.././src//A.fs" ["w", "src", "A.fs"] ∧
    nested.Names (Path.normalize "../../../w/lib/.././src//A.fs") ["w", "src", "A.fs"] ∧
    nested.find? (Path.normalize "../../../w/lib/.././src//A.fs") =
      nested.find? "../../../w/lib/.././src//A.fs" ∧
    nested.Names "/../w/src/../src/A.fs" ["w", "src", "A.fs"] ∧ nested.Names "/w/A.fs" ["w", "A.fs"] ∧
    (Path.normalize "/../w/src/../src/A.fs" = Path.normalize "/w/A.fs" ↔
      ["w", "src", "A.fs"] = ["w", "A.fs"]) := by
  have hrelative : nested.Names "../../../w/lib/.././src//A.fs" ["w", "src", "A.fs"] :=
    names_of_locate (by decide +kernel) ⟨.empty, 0o644, rfl⟩
  have habsolute : nested.Names "/../w/src/../src/A.fs" ["w", "src", "A.fs"] :=
    names_of_locate (by decide +kernel) ⟨.empty, 0o644, rfl⟩
  have hother : nested.Names "/w/A.fs" ["w", "A.fs"] :=
    names_of_locate (by decide +kernel) ⟨.empty, 0o644, rfl⟩
  obtain ⟨hfolded, hfound, -⟩ := names_normalize nested (by decide) hrelative
  obtain ⟨-, -, htold⟩ := names_normalize nested (by decide) habsolute
  exact ⟨hrelative, hfolded, hfound (by decide +kernel), habsolute, hother,
    htold "/w/A.fs" ["w", "A.fs"] (by decide) hother (by decide) (by decide)⟩

end Tree

end WarmCompile
