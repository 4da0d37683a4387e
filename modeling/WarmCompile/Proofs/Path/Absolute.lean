import WarmCompile.Proofs.Path.Canonical

/-!
Paths as seen from a working directory: making a path absolute and folding it is resolving it in that
directory, and the names beside a file that was made absolute are those beside the file.
-/

namespace WarmCompile.Path

variable {dir name base path : String}

/-! ### Joined names -/

theorem ne_nil_of_ne_empty {s : String} (h : s ≠ "") : s.toList ≠ [] :=
  fun hnil => h (String.toList_inj.1 hnil)

/-- A relative name is put behind the directory, with one slash between them. -/
theorem toList_join (hdir : dir ≠ "") (hname : isAbsolute name.toList = false) :
    (join dir name).toList = (if dir.toList.getLast? = some '/' then dir.toList
      else dir.toList ++ ['/']) ++ name.toList := by
  have hempty : dir.isEmpty = false := by simpa using hdir
  unfold join
  rw [hname, hempty]
  simp only [Bool.or_self, Bool.false_eq_true, if_false, beq_iff_eq]
  split
  · exact String.toList_append
  · rw [String.toList_append, String.toList_append]
    rfl

/-- A directory and a slash behind it, if there is none. -/
theorem closed_cases {text : List Char} (hne : text ≠ []) :
    ∃ front, (if text.getLast? = some '/' then text else text ++ ['/']) = front ++ ['/'] ∧
      ofText (front ++ ['/']) = ofText text := by
  split
  · rename_i hlast
    obtain ⟨front, rfl⟩ := List.getLast?_eq_some_iff.1 hlast
    exact ⟨front, rfl, rfl⟩
  · exact ⟨text, rfl, ofText_closed hne⟩

/-- Going down into a directory and on along a name. -/
theorem ofText_join (hdir : dir ≠ "") (hname : isAbsolute name.toList = false) :
    ofText (join dir name).toList = (ofText dir.toList).descend name.toList := by
  obtain ⟨front, hfront, hsame⟩ := closed_cases (ne_nil_of_ne_empty hdir)
  rw [toList_join hdir hname, hfront, List.append_assoc]
  change ofText (front ++ '/' :: name.toList) = _
  rw [ofText_append, hsame]

theorem not_mem_join (hdir : '\\' ∉ dir.toList) (hname : '\\' ∉ name.toList) :
    '\\' ∉ (join dir name).toList := by
  unfold join
  split
  · exact hname
  · split
    · rw [String.toList_append]
      exact fun h => (List.mem_append.1 h).elim hdir hname
    · rw [String.toList_append, String.toList_append]
      intro h
      rcases List.mem_append.1 h with h | h
      · rcases List.mem_append.1 h with h | h
        · exact hdir h
        · exact absurd h (by decide)
      · exact hname h

theorem join_ne_empty (hdir : dir ≠ "") (name : String) : join dir name ≠ "" := by
  intro hempty
  cases hname : isAbsolute name.toList with
  | true =>
    rw [join, hname] at hempty
    subst hempty
    cases hname
  | false =>
    obtain ⟨front, hfront, -⟩ := closed_cases (ne_nil_of_ne_empty hdir)
    have hlist := toList_join hdir hname
    rw [hempty, hfront] at hlist
    simp at hlist

/-- A relative name folds to what it leads to from the directory that it is joined to. -/
theorem normalize_join (hdir : dir ≠ "") (hback : '\\' ∉ dir.toList) (hname : Relative name) :
    normalize (join dir name) = resolve dir name := by
  obtain ⟨front, hfront, hclosed⟩ := closed_cases (ne_nil_of_ne_empty hdir)
  have hfrontBack : '\\' ∉ front ++ ['/'] := by
    intro h
    rw [← hfront] at h
    split at h
    · exact hback h
    · exact (List.mem_append.1 h).elim hback (by decide)
  have hlist : (forward (join dir name)).toList = front ++ '/' :: (forward name).toList := by
    have hrelative : isAbsolute name.toList = false := beq_false_of_ne hname.1
    rw [toList_forward, toList_join hdir hrelative, hfront, forwardText_append,
      forwardText_of_not_mem hfrontBack, toList_forward, List.append_assoc]
    rfl
  rw [normalize_eq, hlist, ofText_append, hclosed, resolve]
  simp only [hname.isAbsolute_eq]
  rfl

/-! ### Absolute paths -/

/-- What a path is put behind when it is made absolute. -/
def origin (cwd : String) : List Char → String
  | '/' :: '/' :: '/' :: _ => "/"
  | '/' :: '/' :: _ => "//"
  | '/' :: _ => "/"
  | _ => cwd

/-- The segments of a path that are kept when it is made absolute. -/
def steps (text : List Char) : List (List Char) :=
  (text.splitOn '/').filter fun s => s ≠ [] && s ≠ ['.']

/-- Segments put behind a directory, one after the other. -/
def extend (dir : String) (segments : List (List Char)) : String :=
  segments.foldl (fun dir name => join dir (String.ofList name)) dir

theorem absolute_eq (cwd path : String) : absolute cwd path =
    if path.toList.getLast? = some '/' ∧
        (extend (origin cwd path.toList) (steps path.toList)).toList.getLast? ≠ some '/' then
      extend (origin cwd path.toList) (steps path.toList) ++ "/"
    else extend (origin cwd path.toList) (steps path.toList) := by
  unfold absolute
  simp only [Bool.and_eq_true, decide_eq_true_eq, ne_eq]
  rfl

/-- What segments of a path are like. -/
def Plain (s : List Char) : Prop :=
  s ≠ [] ∧ '/' ∉ s

theorem Plain.isAbsolute_eq {s : List Char} (h : Plain s) :
    isAbsolute (String.ofList s).toList = false := by
  rw [String.toList_ofList, isAbsolute, beq_eq_false_iff_ne]
  intro hhead
  exact h.2 (List.mem_of_head? hhead)

theorem of_mem_steps {text s : List Char} (h : s ∈ steps text) :
    Plain s ∧ s ≠ ['.'] ∧ s ∈ text.splitOn '/' := by
  obtain ⟨hs, hkept⟩ := List.mem_filter.1 h
  simp only [Bool.and_eq_true, decide_eq_true_eq] at hkept
  exact ⟨⟨hkept.1, fun hc => (of_mem_splitOn hs hc).2 rfl⟩, hkept.2, hs⟩

/-- The segments that are left out lead nowhere. -/
theorem foldl_steps (p : Path) (text : List Char) : (steps text).foldl child p = p.descend text := by
  unfold steps descend
  induction text.splitOn '/' generalizing p with
  | nil => rfl
  | cons s segments ih =>
    rw [List.filter_cons, List.foldl_cons]
    split
    · exact ih _
    · rename_i hleft
      have hstays : p.child s = p := by
        simp only [Bool.and_eq_true, decide_eq_true_eq, not_and, not_not] at hleft
        exact if_pos (or_iff_not_imp_left.2 hleft)
      rw [hstays]
      exact ih p

theorem extend_ne_empty (hdir : dir ≠ "") {segments : List (List Char)}
    (h : ∀ s ∈ segments, Plain s) : extend dir segments ≠ "" := by
  induction segments generalizing dir with
  | nil => exact hdir
  | cons s segments ih =>
    obtain ⟨hs, hrest⟩ := List.forall_mem_cons.1 h
    exact ih (join_ne_empty hdir _) hrest

theorem ofText_extend (hdir : dir ≠ "") {segments : List (List Char)} (h : ∀ s ∈ segments, Plain s) :
    ofText (extend dir segments).toList = segments.foldl child (ofText dir.toList) := by
  induction segments generalizing dir with
  | nil => rfl
  | cons s segments ih =>
    obtain ⟨hs, hrest⟩ := List.forall_mem_cons.1 h
    have hfirst : ofText (join dir (String.ofList s)).toList = (ofText dir.toList).child s := by
      rw [ofText_join hdir hs.isAbsolute_eq, String.toList_ofList, descend_segment _ hs.2]
    rw [List.foldl_cons, ← hfirst]
    exact ih (join_ne_empty hdir _) hrest

theorem not_mem_extend (hdir : '\\' ∉ dir.toList) {segments : List (List Char)}
    (h : ∀ s ∈ segments, '\\' ∉ s) : '\\' ∉ (extend dir segments).toList := by
  induction segments generalizing dir with
  | nil => exact hdir
  | cons s segments ih =>
    obtain ⟨hs, hrest⟩ := List.forall_mem_cons.1 h
    exact ih (not_mem_join hdir (by rwa [String.toList_ofList])) hrest

/-- An absolute path is put behind the root, with one or two slashes, and any other behind the
working directory. -/
theorem origin_cases (cwd : String) (text : List Char) :
    (isAbsolute text = true ∧ (origin cwd text = "/" ∨ origin cwd text = "//")) ∨
    (isAbsolute text = false ∧ origin cwd text = cwd) := by
  unfold origin
  split
  · exact .inl ⟨rfl, .inl rfl⟩
  · exact .inl ⟨rfl, .inr rfl⟩
  · exact .inl ⟨rfl, .inl rfl⟩
  · rename_i hrelative
    right
    refine ⟨?_, rfl⟩
    rw [Bool.eq_false_iff]
    intro habsolute
    obtain ⟨rest, rfl⟩ := isAbsolute_iff.1 habsolute
    exact hrelative rest rfl

theorem origin_ne_empty {cwd : String} (hcwd : cwd ≠ "") (text : List Char) : origin cwd text ≠ "" := by
  rcases origin_cases cwd text with ⟨-, h | h⟩ | ⟨-, h⟩
  · rw [h]
    decide
  · rw [h]
    decide
  · rw [h]
    exact hcwd

theorem not_mem_origin {cwd : String} (hcwd : '\\' ∉ cwd.toList) (text : List Char) :
    '\\' ∉ (origin cwd text).toList := by
  rcases origin_cases cwd text with ⟨-, h | h⟩ | ⟨-, h⟩
  · rw [h]
    decide
  · rw [h]
    decide
  · rw [h]
    exact hcwd

/-- Going on from where a path starts is going along the path as seen from the working directory. -/
theorem descend_origin (cwd : String) (text : List Char) (rest : List Char) :
    (ofText (origin cwd text).toList).descend rest =
      if isAbsolute text then descend ⟨true, 0, []⟩ rest else (ofText cwd.toList).descend rest := by
  rcases origin_cases cwd text with ⟨habsolute, h | h⟩ | ⟨hrelative, h⟩
  · rw [h, if_pos habsolute]
    rfl
  · rw [h, if_pos habsolute]
    rfl
  · rw [h, hrelative]
    rfl

theorem not_mem_absolute {cwd : String} (hback : '\\' ∉ cwd.toList) (hpath : '\\' ∉ path.toList) :
    '\\' ∉ (absolute cwd path).toList := by
  have hextended : '\\' ∉ (extend (origin cwd path.toList) (steps path.toList)).toList := by
    apply not_mem_extend (not_mem_origin hback _)
    intro s hs hc
    exact hpath (of_mem_splitOn (of_mem_steps hs).2.2 hc).1
  rw [absolute_eq]
  split
  · rw [String.toList_append]
    exact fun h => (List.mem_append.1 h).elim hextended (by decide)
  · exact hextended

section

variable {cwd : String} (hcwd : cwd ≠ "")

include hcwd

/-- An absolute path folds to what the path leads to from the working directory. -/
theorem ofText_absolute (path : String) : ofText (absolute cwd path).toList =
    if isAbsolute path.toList then ofText path.toList
    else (ofText cwd.toList).descend path.toList := by
  have hplain : ∀ s ∈ steps path.toList, Plain s := fun s hs => (of_mem_steps hs).1
  have horigin := origin_ne_empty hcwd path.toList
  have hextended : ofText (extend (origin cwd path.toList) (steps path.toList)).toList =
      if isAbsolute path.toList then ofText path.toList
      else (ofText cwd.toList).descend path.toList := by
    rw [ofText_extend horigin hplain, foldl_steps, descend_origin]
    split
    · rename_i habsolute
      rw [ofText, habsolute]
    · rfl
  rw [absolute_eq]
  split
  · rw [String.toList_append]
    exact (ofText_closed (ne_nil_of_ne_empty (extend_ne_empty horigin hplain))).trans hextended
  · exact hextended

theorem isAbsolute_absolute (hrooted : isAbsolute cwd.toList = true) (path : String) :
    isAbsolute (absolute cwd path).toList = true := by
  have hfolded := congrArg Path.rooted (ofText_absolute hcwd path)
  rw [ofText, rooted_descend] at hfolded
  refine hfolded.trans ?_
  split
  · rename_i habsolute
    rw [ofText, rooted_descend, habsolute]
  · rw [rooted_descend, ofText, rooted_descend, hrooted]

/-- Making a path absolute and folding it is resolving it in the working directory. -/
theorem normalize_absolute (hback : '\\' ∉ cwd.toList) (hpath : '\\' ∉ path.toList) :
    normalize (absolute cwd path) = resolve cwd path := by
  rw [normalize_eq, forward_of_not_mem (not_mem_absolute hback hpath), ofText_absolute hcwd]
  simp only [resolve, forward_of_not_mem hpath]

end

/-! ### Files that are made absolute -/

/-- The last segment of a path is a name. -/
structure EndsWith (path : String) (base : List Char) : Prop where
  plain : Plain base
  ne_dot : base ≠ ['.']
  ne_dots : base ≠ ['.', '.']
  ending : path.toList = base ∨ ∃ front, path.toList = front ++ '/' :: base

theorem EndsWith.getLast? {base : List Char} (h : EndsWith path base) :
    path.toList.getLast? = base.getLast? := by
  rcases h.ending with heq | ⟨front, heq⟩
  · rw [heq]
  · have hjoined : front ++ '/' :: base = (front ++ ['/']) ++ base := by simp
    rw [heq, hjoined, List.getLast?_append_of_ne_nil _ h.plain.1]

/-- The directory of a file is what is written ahead of its name. -/
theorem EndsWith.parent_cases {base : List Char} (h : EndsWith path base) :
    (path.toList = base ∧ parent path = "") ∨
      ∃ front, path.toList = front ++ '/' :: base ∧ (parent path).toList = front ++ ['/'] := by
  rcases h.ending with heq | ⟨front, heq⟩
  · left
    refine ⟨heq, ?_⟩
    rw [parent, heq, dropWhile_of_not_mem h.plain.2]
    rfl
  · right
    refine ⟨front, heq, ?_⟩
    rw [parent, heq, dropWhile_of_append h.plain.2, String.toList_ofList]
    simp

/-- Below the directory of a file there is its name. -/
theorem EndsWith.ofText_eq {base : List Char} (h : EndsWith path base) :
    ofText path.toList = { ofText (parent path).toList with
      names := (ofText (parent path).toList).names ++ [base] } := by
  have hchild : ∀ p : Path, p.child base = { p with names := p.names ++ [base] } := by
    intro p
    rw [child, if_neg (not_or.2 ⟨h.plain.1, h.ne_dot⟩), if_neg h.ne_dots]
  rcases h.parent_cases with ⟨hpath, hparent⟩ | ⟨front, hpath, hparent⟩
  · have hrelative := h.plain.isAbsolute_eq
    rw [String.toList_ofList] at hrelative
    rw [hpath, hparent, ofText, hrelative, descend_segment _ h.plain.2, hchild]
    rfl
  · rw [hpath, hparent, ofText_append, descend_segment _ h.plain.2, hchild]

theorem steps_of_plain {base : List Char} (hplain : Plain base) (hdot : base ≠ ['.']) :
    steps base = [base] := by
  rw [steps, List.splitOn_eq_singleton hplain.2]
  simp [hplain.1, hdot]

theorem steps_append (front base : List Char) :
    steps (front ++ '/' :: base) = steps front ++ steps base := by
  rw [steps, List.splitOn_append_cons_of_beq _ _ (beq_self_eq_true _), List.filter_append]
  rfl

section

variable {cwd : String} (hcwd : cwd ≠ "") {base : List Char} (hbase : EndsWith path base)

include hcwd hbase

/-- When a file is made absolute its name is put behind its directory, as the directory is seen from
the working directory. -/
theorem absolute_of_endsWith : ∃ above, above ≠ "" ∧
    absolute cwd path = join above (String.ofList base) ∧
      ofText above.toList = ofText (join cwd (parent path)).toList := by
  have hopen : path.toList.getLast? ≠ some '/' := by
    intro h
    rw [hbase.getLast?] at h
    exact hbase.plain.2 (List.mem_of_getLast? h)
  have habsolute : absolute cwd path = extend (origin cwd path.toList) (steps path.toList) := by
    rw [absolute_eq, if_neg fun h => hopen h.1]
  rcases hbase.parent_cases with ⟨heq, hparent⟩ | ⟨front, heq, hparent⟩
  · have hrelative : isAbsolute path.toList = false := by
      have hplain := hbase.plain.isAbsolute_eq
      rwa [String.toList_ofList, ← heq] at hplain
    obtain ⟨habs, -⟩ | ⟨-, horigin⟩ := origin_cases cwd path.toList
    · cases habs.symm.trans hrelative
    · refine ⟨cwd, hcwd, ?_, ?_⟩
      · rw [habsolute, horigin, heq, steps_of_plain hbase.plain hbase.ne_dot]
        rfl
      · rw [hparent, ofText_join hcwd rfl]
        exact (descend_nil _).symm
  · have hplain : ∀ s ∈ steps front, Plain s := fun s hs => (of_mem_steps hs).1
    have horigin := origin_ne_empty hcwd path.toList
    have hsame : isAbsolute path.toList = isAbsolute (parent path).toList := by
      rw [heq, hparent, isAbsolute_append]
    refine ⟨extend (origin cwd path.toList) (steps front), extend_ne_empty horigin hplain, ?_, ?_⟩
    · rw [habsolute, heq, steps_append, steps_of_plain hbase.plain hbase.ne_dot, extend, extend,
        List.foldl_append]
      rfl
    · rw [ofText_extend horigin hplain, foldl_steps, descend_origin, hsame]
      split
      · rename_i hrooted
        have hjoin : join cwd (parent path) = parent path := by
          rw [join, hrooted]
          rfl
        rw [hjoin, ofText, hrooted, hparent, descend_append, descend_nil]
      · rename_i hrelative
        rw [ofText_join hcwd (Bool.eq_false_iff.2 hrelative), hparent, descend_append, descend_nil]

/-- Names are resolved beside the file as they are in its directory. -/
theorem ofText_parent_absolute :
    ofText (parent (absolute cwd path)).toList = ofText (join cwd (parent path)).toList := by
  obtain ⟨above, habove, habsolute, hsame⟩ := absolute_of_endsWith hcwd hbase
  obtain ⟨front, hfront, hclosed⟩ := closed_cases (ne_nil_of_ne_empty habove)
  have hfile : (absolute cwd path).toList = front ++ '/' :: base := by
    rw [habsolute, toList_join habove hbase.plain.isAbsolute_eq, hfront, String.toList_ofList,
      List.append_assoc]
    rfl
  have hparent : (parent (absolute cwd path)).toList = front ++ ['/'] := by
    rw [parent, hfile, dropWhile_of_append hbase.plain.2, String.toList_ofList]
    simp
  rw [hparent, hclosed, hsame]

/-- A name beside a file that was made absolute is what the working directory, the directory of the
file and the name come to, one joined to the other. -/
theorem resolve_parent_absolute (hback : '\\' ∉ cwd.toList) (hpath : '\\' ∉ path.toList)
    {name : String} (hname : Relative name) : resolve (parent (absolute cwd path)) name =
      normalize (join (join cwd (parent path)) name) := by
  rw [normalize_join (join_ne_empty hcwd _) (not_mem_join hback (not_mem_parent hpath)) hname,
    resolve, resolve, ofText_parent_absolute hcwd hbase]

theorem getLast?_absolute : (absolute cwd path).toList.getLast? = path.toList.getLast? := by
  obtain ⟨above, habove, habsolute, -⟩ := absolute_of_endsWith hcwd hbase
  rw [habsolute, toList_join habove hbase.plain.isAbsolute_eq, String.toList_ofList,
    List.getLast?_append_of_ne_nil _ hbase.plain.1, hbase.getLast?]

end

end WarmCompile.Path
