import WarmCompile.Proofs.Compile.Source

/-!
A reader over a whole history of questions, with the disk as it is at each of them. A file is looked
for on the disk until it has been read once; from then on its content stands, whatever becomes of
the file.
-/

namespace WarmCompile.SourceReader

/-- A question, and the disk that a file would be read from when it is asked. -/
inductive Query where
  | read (disk : Disk) (path : String)
  | contains (path : String)
  | files

inductive Reply where
  | content (result : Except CompileError String)
  | covered (yes : Bool)
  | files (files : List String)

def reply (r : SourceReader) : Query → Reply × SourceReader
  | .read disk path => ((r.read disk path).map .content id)
  | .contains path => (.covered (r.contains path), r)
  | .files => (.files r.files, r)

/-- What is asked, each with its reply. -/
def transcript (r : SourceReader) : List Query → List (Query × Reply)
  | [] => []
  | q :: qs => (q, (r.reply q).1) :: transcript (r.reply q).2 qs

variable {files : List String} {r : SourceReader} {disk : Disk} {path : String}
  {qs : List Query} {t before after : List (Query × Reply)}

/-! ### One question -/

theorem read_of_not_mem (h : path ∉ r.files) :
    r.read disk path = (.error (.notInProject path), r) := by
  simp [read, contains, h]

/-- What is not held is looked for on the disk. -/
theorem read_of_not_held (hpath : path ∈ r.files) (hheld : r.held.find? path = none) :
    (r.read disk path).1 = (disk.read path).mapError (.io path) := by
  have hcontains : r.contains path = true := List.contains_iff_mem.2 hpath
  simp only [read, hcontains, hheld]
  cases disk.read path <;> rfl

theorem eq_of_read_error {e : CompileError} (h : (r.read disk path).1 = .error e) :
    (r.read disk path).2 = r := by
  revert h
  unfold read
  split
  · exact fun _ => rfl
  · split
    · exact nofun
    · split
      · exact nofun
      · exact fun _ => rfl

theorem mem_files_of_read {content : String} (h : (r.read disk path).1 = .ok content) :
    path ∈ r.files := by
  refine Decidable.byContradiction fun hnot => ?_
  rw [read_of_not_mem hnot] at h
  cases h

theorem files_read : (r.read disk path).2.files = r.files := by
  cases hread : r.read disk path with
  | mk result r' =>
    cases result with
    | error e => rw [← eq_of_read_error (congrArg Prod.fst hread), hread]
    | ok content => exact (extends_read hread).files

/-- What a read leaves held is what was held, and the content if there is one. -/
theorem held_read_iff {p content : String} : (r.read disk path).2.held.find? p = some content ↔
    r.held.find? p = some content ∨ p = path ∧ (r.read disk path).1 = .ok content := by
  unfold read
  split
  · simp
  · split
    · rename_i content' hheld
      refine ⟨.inl, ?_⟩
      rintro (h | ⟨rfl, h⟩)
      · exact h
      · cases h
        exact hheld
    · rename_i hheld
      split
      · rw [Table.find?_insert]
        by_cases hp : p = path
        · simp [hp, hheld]
        · simp [hp]
      · simp

/-- A reader behind a transcript: it covers the same files and holds what has been read. -/
structure Behind (files : List String) (t : List (Query × Reply)) (r : SourceReader) : Prop where
  files : r.files = files
  held : ∀ path content, r.held.find? path = some content ↔
    ∃ disk, (.read disk path, .content (.ok content)) ∈ t

theorem behind_ofFiles (files : List String) : Behind files [] (ofFiles files) where
  files := rfl
  held path content := by simp [ofFiles]

/-- Each reply leaves a reader that is behind it. -/
theorem Behind.next (h : Behind files t r) (q : Query) :
    Behind files (t ++ [(q, (r.reply q).1)]) (r.reply q).2 := by
  cases q with
  | contains path =>
    refine ⟨h.files, fun p content => (h.held p content).trans ?_⟩
    simp
  | files =>
    refine ⟨h.files, fun p content => (h.held p content).trans ?_⟩
    simp
  | read disk path =>
    refine ⟨files_read.trans h.files, fun p content => held_read_iff.trans ?_⟩
    simp only [h.held, reply, Prod.map_fst, List.mem_append, List.mem_singleton, Prod.mk.injEq,
      Query.read.injEq, Reply.content.injEq, exists_or]
    exact or_congr_right ⟨fun hread => ⟨disk, ⟨rfl, hread.1⟩, hread.2.symm⟩,
      fun ⟨_, hread, hcontent⟩ => ⟨hread.2, hcontent.symm⟩⟩

/-! ### A history -/

theorem map_transcript (r : SourceReader) (qs : List Query) :
    (r.transcript qs).map Prod.fst = qs := by
  induction qs generalizing r with
  | nil => rfl
  | cons q qs ih => exact congrArg (q :: ·) (ih _)

/-- Wherever a transcript is cut, a reader behind its first part gives the next reply. -/
theorem Behind.cut {x : Query × Reply} (h : Behind files t r)
    (hcut : r.transcript qs = before ++ x :: after) : ∃ r', Behind files (t ++ before) r' ∧
      x.2 = (r'.reply x.1).1 ∧ after = (r'.reply x.1).2.transcript (after.map Prod.fst) ∧
      ∀ qs', r.transcript (before.map Prod.fst ++ qs') = before ++ r'.transcript qs' := by
  induction before generalizing r t qs with
  | nil =>
    cases qs with
    | nil => cases hcut
    | cons q qs =>
      obtain ⟨rfl, rfl⟩ := List.cons_eq_cons.1 hcut
      refine ⟨r, by rwa [List.append_nil], rfl, ?_, fun qs' => rfl⟩
      rw [map_transcript]
  | cons y before ih =>
    cases qs with
    | nil => cases hcut
    | cons q qs =>
      obtain ⟨rfl, hrest⟩ := List.cons_eq_cons.1 hcut
      obtain ⟨r', hbehind, hreply, hafter, hfront⟩ := ih (h.next q) hrest
      refine ⟨r', ?_, hreply, hafter, fun qs' => ?_⟩
      · rwa [List.append_assoc] at hbehind
      · exact congrArg _ (hfront qs')

/-- What a transcript of a reader over some files is like. -/
structure Steady (files : List String) (t : List (Query × Reply)) : Prop where
  listed : ∀ reply, (.files, reply) ∈ t → reply = .files files
  covered : ∀ path reply, (.contains path, reply) ∈ t → reply = .covered (decide (path ∈ files))
  /-- No other file is read, whatever is on the disk. -/
  refused : ∀ disk path reply, path ∉ files → (.read disk path, reply) ∈ t →
    reply = .content (.error (.notInProject path))
  /-- As long as a file has not been read, it is looked for on the disk. -/
  looked : ∀ before disk path reply after, path ∈ files →
    t = before ++ (.read disk path, reply) :: after →
    (∀ disk' content, (.read disk' path, .content (.ok content)) ∉ before) →
    reply = .content ((disk.read path).mapError (.io path))
  /-- What has been read once is what all later reads give. -/
  held : ∀ before disk path content after,
    t = before ++ (.read disk path, .content (.ok content)) :: after →
    ∀ disk' reply, (.read disk' path, reply) ∈ after → reply = .content (.ok content)
  /-- Without a read that failed, all other replies are the same. -/
  traceless : ∀ before disk path e after,
    t = before ++ (.read disk path, .content (.error e)) :: after →
    (ofFiles files).transcript (before.map Prod.fst ++ after.map Prod.fst) = before ++ after

theorem steady_transcript (files : List String) (qs : List Query) :
    Steady files ((ofFiles files).transcript qs) := by
  have hcut : ∀ {before x after}, (ofFiles files).transcript qs = before ++ x :: after → _ :=
    fun h => (behind_ofFiles files).cut h
  have hasReader : ∀ {x}, x ∈ (ofFiles files).transcript qs →
      ∃ r : SourceReader, r.files = files ∧ x.2 = (r.reply x.1).1 := by
    intro x hx
    obtain ⟨before, after, hx⟩ := List.append_of_mem hx
    obtain ⟨r, hbehind, hreply, -⟩ := hcut hx
    exact ⟨r, hbehind.files, hreply⟩
  constructor
  case listed =>
    intro reply hmem
    obtain ⟨r, hfiles, hreply⟩ := hasReader hmem
    exact hfiles ▸ hreply
  case covered =>
    intro path reply hmem
    obtain ⟨r, rfl, hreply⟩ := hasReader hmem
    refine hreply.trans (congrArg Reply.covered ?_)
    simp [contains]
  case refused =>
    intro disk path reply hpath hmem
    obtain ⟨r, rfl, hreply⟩ := hasReader hmem
    exact hreply.trans (congrArg Reply.content (congrArg Prod.fst (read_of_not_mem hpath)))
  case looked =>
    intro before disk path reply after hpath ht hfirst
    obtain ⟨r, hbehind, hreply, -⟩ := hcut ht
    have hheld : r.held.find? path = none := by
      refine Option.eq_none_iff_forall_ne_some.2 fun content hsome => ?_
      obtain ⟨disk', hread⟩ := (hbehind.held path content).1 hsome
      exact hfirst disk' content hread
    have hcovered : path ∈ r.files := hbehind.files.symm ▸ hpath
    exact hreply.trans (congrArg Reply.content (read_of_not_held hcovered hheld))
  case held =>
    intro before disk path content after ht disk' reply hreply
    obtain ⟨r, hbehind, hfirst, -⟩ := hcut ht
    have hpath : path ∈ files :=
      hbehind.files ▸ mem_files_of_read (Reply.content.inj hfirst).symm
    obtain ⟨between, later, rfl⟩ := List.append_of_mem hreply
    have ht' : (ofFiles files).transcript qs =
        (before ++ (.read disk path, .content (.ok content)) :: between) ++
          (.read disk' path, reply) :: later := by
      rw [ht, List.append_assoc]
      rfl
    obtain ⟨r', hbehind', hreply', -⟩ := hcut ht'
    have hheld : r'.held.find? path = some content :=
      (hbehind'.held path content).2 ⟨disk, by simp⟩
    have hcovered : path ∈ r'.files := hbehind'.files.symm ▸ hpath
    have hread : r'.read disk' path = (.ok content, r') := read_of_held hcovered hheld
    exact hreply'.trans (congrArg Reply.content (congrArg Prod.fst hread))
  case traceless =>
    intro before disk path e after ht
    obtain ⟨r, hbehind, hreply, hafter, hfront⟩ := hcut ht
    have hsame : (r.reply (.read disk path)).2 = r :=
      eq_of_read_error (Reply.content.inj hreply).symm
    rw [hfront, ← hsame]
    exact congrArg _ hafter.symm

end WarmCompile.SourceReader
