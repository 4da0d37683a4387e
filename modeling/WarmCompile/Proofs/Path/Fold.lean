import WarmCompile.Path

/-!
Folded paths: what folding leaves behind, and that folding does nothing more to it.
-/

namespace WarmCompile.Path

/-! ### Segments -/

theorem of_mem_splitOn {sep c : Char} {text segment : List Char}
    (hsegment : segment ∈ text.splitOn sep) (hc : c ∈ segment) : c ∈ text ∧ c ≠ sep := by
  induction text generalizing segment with
  | nil =>
    obtain rfl := List.mem_singleton.1 hsegment
    exact absurd hc List.not_mem_nil
  | cons x text ih =>
    rw [List.splitOn_cons_eq_if_modifyHead] at hsegment
    split at hsegment
    · rcases List.mem_cons.1 hsegment with rfl | hsegment
      · exact absurd hc List.not_mem_nil
      · exact (ih hsegment hc).imp_left (List.mem_cons_of_mem x)
    · rename_i hx
      obtain ⟨first, rest, hsplit⟩ := List.exists_cons_of_ne_nil (List.splitOn_ne_nil sep text)
      rw [hsplit, List.modifyHead_cons] at hsegment
      rcases List.mem_cons.1 hsegment with rfl | hsegment
      · rcases List.mem_cons.1 hc with rfl | hc
        · exact ⟨List.mem_cons_self, fun h => hx (by simp [h])⟩
        · exact (ih (hsplit ▸ List.mem_cons_self) hc).imp_left (List.mem_cons_of_mem x)
      · exact (ih (hsplit ▸ List.mem_cons_of_mem first hsegment) hc).imp_left
          (List.mem_cons_of_mem x)

theorem mem_intercalate {c sep : Char} {segments : List (List Char)}
    (hc : c ∈ [sep].intercalate segments) : c = sep ∨ ∃ s ∈ segments, c ∈ s := by
  induction segments with
  | nil => exact absurd hc List.not_mem_nil
  | cons s segments ih =>
    cases segments with
    | nil => exact .inr ⟨s, List.mem_cons_self, by simpa using hc⟩
    | cons s' segments =>
      rw [List.intercalate_cons_cons, List.append_assoc, List.mem_append] at hc
      rcases hc with hc | hc
      · exact .inr ⟨s, List.mem_cons_self, hc⟩
      · rcases List.mem_cons.1 hc with rfl | hc
        · exact .inl rfl
        · obtain hsep | ⟨t, ht, hct⟩ := ih hc
          · exact .inl hsep
          · exact .inr ⟨t, List.mem_cons_of_mem s ht, hct⟩

theorem isAbsolute_intercalate {segments : List (List Char)}
    (h : ∀ s ∈ segments, s ≠ [] ∧ '/' ∉ s) : isAbsolute (['/'].intercalate segments) = false := by
  cases segments with
  | nil => rfl
  | cons s segments =>
    obtain ⟨hs, hslash⟩ := h s List.mem_cons_self
    obtain ⟨c, s, rfl⟩ := List.exists_cons_of_ne_nil hs
    rw [List.intercalate_cons_cons_left]
    exact beq_false_of_ne fun h => hslash (Option.some.inj h ▸ List.mem_cons_self)

theorem descend_intercalate (p : Path) {segments : List (List Char)}
    (h : ∀ s ∈ segments, '/' ∉ s) :
    p.descend (['/'].intercalate segments) = segments.foldl child p := by
  cases segments with
  | nil => simp [descend, child]
  | cons s segments =>
    rw [descend, List.splitOn_intercalate '/' h (List.cons_ne_nil s segments)]

/-! ### Backslashes -/

theorem not_mem_forward (s : String) : '\\' ∉ (forward s).toList := by
  intro h
  rw [forward, String.toList_ofList] at h
  obtain ⟨c, -, hc⟩ := List.mem_map.1 h
  split at hc
  · exact absurd hc (by decide)
  · exact absurd hc ‹_›

theorem forward_of_not_mem {s : String} (h : '\\' ∉ s.toList) : forward s = s := by
  have hmap : s.toList.map (fun c => if c = '\\' then '/' else c) = s.toList := by
    refine (List.map_congr_left fun c hc => if_neg ?_).trans (List.map_id s.toList)
    intro hback
    exact h (hback ▸ hc)
  rw [forward, hmap, String.ofList_toList]

/-! ### Folded paths -/

/-- The name of a file or directory, which stands for itself in a path. -/
structure IsName (name : List Char) : Prop where
  ne_nil : name ≠ []
  ne_dot : name ≠ ['.']
  ne_dots : name ≠ ['.', '.']
  slash : '/' ∉ name
  backslash : '\\' ∉ name

/-- Nothing climbs above the root, and every name is one. -/
structure Proper (p : Path) : Prop where
  level : p.rooted = true → p.climbs = 0
  names : ∀ n ∈ p.names, IsName n

theorem proper_child {p : Path} (hp : p.Proper) {segment : List Char} (hslash : '/' ∉ segment)
    (hback : '\\' ∉ segment) : (p.child segment).Proper := by
  unfold child
  split
  · exact hp
  · rename_i hdot
    split
    · split
      · split
        · exact hp
        · rename_i hrooted
          exact ⟨fun h => absurd h hrooted, hp.names⟩
      · exact ⟨hp.level, fun n hn => hp.names n (List.dropLast_subset _ hn)⟩
    · rename_i hdots
      refine ⟨hp.level, fun n hn => ?_⟩
      rcases List.mem_append.1 hn with hn | hn
      · exact hp.names n hn
      · obtain rfl := List.mem_singleton.1 hn
        exact ⟨fun h => hdot (.inl h), fun h => hdot (.inr h), hdots, hslash, hback⟩

theorem proper_foldl_child {p : Path} (hp : p.Proper) {segments : List (List Char)}
    (h : ∀ s ∈ segments, '/' ∉ s ∧ '\\' ∉ s) : (segments.foldl child p).Proper := by
  induction segments generalizing p with
  | nil => exact hp
  | cons s segments ih =>
    obtain ⟨hslash, hback⟩ := h s List.mem_cons_self
    exact ih (proper_child hp hslash hback) fun s' hs' => h s' (List.mem_cons_of_mem s hs')

theorem proper_descend {p : Path} (hp : p.Proper) {text : List Char} (hback : '\\' ∉ text) :
    (p.descend text).Proper :=
  proper_foldl_child hp fun _ hs =>
    ⟨fun h => (of_mem_splitOn hs h).2 rfl, fun h => hback (of_mem_splitOn hs h).1⟩

theorem proper_ofText {text : List Char} (hback : '\\' ∉ text) : (ofText text).Proper :=
  proper_descend ⟨fun _ => rfl, fun _ hn => absurd hn List.not_mem_nil⟩ hback

theorem foldl_child_dots (climbs more : Nat) :
    (List.replicate more ['.', '.']).foldl child ⟨false, climbs, []⟩ =
      ⟨false, climbs + more, []⟩ := by
  induction more generalizing climbs with
  | zero => rfl
  | succ more ih =>
    rw [List.replicate_succ, List.foldl_cons]
    change (List.replicate more ['.', '.']).foldl child ⟨false, climbs + 1, []⟩ = _
    rw [ih, Nat.add_right_comm, Nat.add_assoc]

theorem foldl_child_names (p : Path) {names : List (List Char)} (h : ∀ n ∈ names, IsName n) :
    names.foldl child p = { p with names := p.names ++ names } := by
  induction names generalizing p with
  | nil => simp
  | cons n names ih =>
    have hn := h n List.mem_cons_self
    have hchild : p.child n = { p with names := p.names ++ [n] } := by
      simp [child, hn.ne_nil, hn.ne_dot, hn.ne_dots]
    rw [List.foldl_cons, hchild, ih _ fun n' hn' => h n' (List.mem_cons_of_mem n hn')]
    simp

theorem segments_of_proper {p : Path} (hp : p.Proper) :
    ∀ s ∈ p.segments, s ≠ [] ∧ '/' ∉ s ∧ '\\' ∉ s := by
  intro s hs
  rcases List.mem_append.1 hs with hs | hs
  · obtain rfl := List.eq_of_mem_replicate hs
    decide
  · have hname := hp.names s hs
    exact ⟨hname.ne_nil, hname.slash, hname.backslash⟩

theorem mem_toText {p : Path} {c : Char} (h : c ∈ p.toText) : c = '/' ∨ ∃ s ∈ p.segments, c ∈ s := by
  unfold toText at h
  split at h
  · rcases List.mem_cons.1 h with h | h
    · exact .inl h
    · exact mem_intercalate h
  · exact mem_intercalate h

theorem not_mem_toText {p : Path} (hp : p.Proper) : '\\' ∉ p.toText := by
  intro h
  obtain h | ⟨s, hs, hc⟩ := mem_toText h
  · exact absurd h (by decide)
  · exact (segments_of_proper hp s hs).2.2 hc

/-- The text of a proper path is read back as that path. -/
theorem ofText_toText {p : Path} (hp : p.Proper) : ofText p.toText = p := by
  have hslash : ∀ s ∈ p.segments, '/' ∉ s := fun s hs => (segments_of_proper hp s hs).2.1
  have hdescend := fun q : Path => descend_intercalate q hslash
  have hrelative : isAbsolute (['/'].intercalate p.segments) = false :=
    isAbsolute_intercalate fun s hs => ⟨(segments_of_proper hp s hs).1, hslash s hs⟩
  obtain ⟨rooted, climbs, names⟩ := p
  cases rooted with
  | true =>
    obtain rfl : climbs = 0 := hp.level rfl
    have hroot : ofText (toText ⟨true, 0, names⟩) =
        descend ⟨true, 0, []⟩ (['/'].intercalate names) := by
      change (('/' :: ['/'].intercalate names).splitOn '/').foldl child ⟨true, 0, []⟩ = _
      rw [List.splitOn_cons_eq_if_modifyHead]
      rfl
    rw [hroot]
    exact (hdescend ⟨true, 0, []⟩).trans (foldl_child_names _ hp.names)
  | false =>
    have hroot : ofText (toText ⟨false, climbs, names⟩) =
        descend ⟨false, 0, []⟩ (['/'].intercalate (segments ⟨false, climbs, names⟩)) := by
      rw [ofText]
      change descend ⟨isAbsolute (['/'].intercalate _), 0, []⟩ _ = _
      rw [hrelative]
      rfl
    rw [hroot, hdescend, segments, List.foldl_append, foldl_child_dots,
      foldl_child_names _ hp.names, Nat.zero_add, List.nil_append]

/-- The text of a path that has been folded. -/
def Folded (s : String) : Prop :=
  ∃ p : Path, p.Proper ∧ s = String.ofList p.toText

theorem Folded.not_mem {s : String} (h : Folded s) : '\\' ∉ s.toList := by
  obtain ⟨p, hp, rfl⟩ := h
  rw [String.toList_ofList]
  exact not_mem_toText hp

theorem folded_resolve {base : String} (hbase : '\\' ∉ base.toList) (relative : String) :
    Folded (resolve base relative) := by
  have hproper : (if isAbsolute (forward relative).toList then ofText (forward relative).toList
      else (ofText base.toList).descend (forward relative).toList).Proper := by
    split
    · exact proper_ofText (not_mem_forward relative)
    · exact proper_descend (proper_ofText hbase) (not_mem_forward relative)
  refine ⟨_, hproper, forward_of_not_mem ?_⟩
  rw [String.toList_ofList]
  exact not_mem_toText hproper

theorem folded_normalize (s : String) : Folded (normalize s) :=
  folded_resolve (by decide) s

theorem Folded.normalize_eq {s : String} (h : Folded s) : normalize s = s := by
  have hforward : forward s = s := forward_of_not_mem h.not_mem
  obtain ⟨p, hp, rfl⟩ := h
  have hfolded : (if isAbsolute p.toText then ofText p.toText
      else (ofText []).descend p.toText) = p := by
    split
    · exact ofText_toText hp
    · rename_i habsolute
      have h : ofText p.toText = (ofText []).descend p.toText := by
        rw [ofText, Bool.eq_false_iff.2 habsolute]
        rfl
      exact h.symm.trans (ofText_toText hp)
  unfold normalize resolve
  rw [hforward, String.toList_ofList]
  change forward (String.ofList (if isAbsolute p.toText then ofText p.toText
      else (ofText []).descend p.toText).toText) = _
  rw [hfolded, hforward]

theorem folded_iff {s : String} : Folded s ↔ normalize s = s :=
  ⟨Folded.normalize_eq, fun h => h ▸ folded_normalize s⟩

/-- The directory of a path without backslashes has none. -/
theorem not_mem_parent {s : String} (h : '\\' ∉ s.toList) : '\\' ∉ (parent s).toList := by
  intro hback
  rw [parent, String.toList_ofList, List.mem_reverse] at hback
  exact h (List.mem_reverse.1 ((List.dropWhile_suffix _).subset hback))

end WarmCompile.Path
