import Mathlib.Data.List.Basic
import Mathlib.Data.List.TakeWhile
import WarmCompile.Proofs.Path.Fold

/-!
Joined paths: going down a path is going down its parts, and a name is folded to the same path
whether it is joined to the directory of a file or resolved beside the file.
-/

namespace WarmCompile.Path

/-! ### Going down -/

theorem descend_nil (p : Path) : p.descend [] = p := by
  simp [descend, child]

theorem descend_append (p : Path) (x y : List Char) :
    p.descend (x ++ '/' :: y) = (p.descend x).descend y := by
  rw [descend, List.splitOn_append_cons_of_beq _ _ (beq_self_eq_true _), List.foldl_append]
  rfl

theorem isAbsolute_append (x y : List Char) :
    isAbsolute (x ++ '/' :: y) = isAbsolute (x ++ ['/']) := by
  cases x <;> rfl

theorem ofText_append (x y : List Char) :
    ofText (x ++ '/' :: y) = (ofText (x ++ ['/'])).descend y := by
  rw [ofText, ofText, isAbsolute_append, descend_append, descend_append, descend_nil]

/-- On its own, a path is folded from its text alone. -/
theorem normalize_eq (s : String) :
    normalize s = forward (String.ofList (ofText (forward s).toList).toText) := by
  have hstart : ofText "".toList = ⟨false, 0, []⟩ := rfl
  simp only [normalize, resolve]
  split
  · rfl
  · rename_i habsolute
    rw [hstart, ofText, Bool.eq_false_iff.2 habsolute]

theorem forward_append (s t : String) : forward (s ++ t) = forward s ++ forward t := by
  rw [forward, String.toList_append, List.map_append, String.ofList_append]
  rfl

/-! ### The directory of a file -/

/-- A path names a file in the directory it is in, or one below a directory that it spells out. -/
theorem base_cases (file : List Char) :
    '/' ∉ file ∨ ∃ dir base, file = dir ++ '/' :: base ∧ '/' ∉ base := by
  induction file with
  | nil => exact .inl List.not_mem_nil
  | cons c file ih =>
    obtain hnone | ⟨dir, base, rfl, hbase⟩ := ih
    · by_cases hc : c = '/'
      · exact .inr ⟨[], file, hc ▸ rfl, hnone⟩
      · exact .inl fun hmem => (List.mem_cons.1 hmem).elim (fun h => hc h.symm) hnone
    · exact .inr ⟨c :: dir, base, rfl, hbase⟩

theorem dropWhile_of_not_mem {base : List Char} (h : '/' ∉ base) :
    base.reverse.dropWhile (· != '/') = [] := by
  refine List.dropWhile_eq_nil_iff.2 fun c hc => ?_
  have hne : c ≠ '/' := fun heq => h (heq ▸ List.mem_reverse.1 hc)
  simpa using hne

theorem dropWhile_of_append {dir base : List Char} (h : '/' ∉ base) :
    (dir ++ '/' :: base).reverse.dropWhile (· != '/') = '/' :: dir.reverse := by
  have hslash : (dir ++ '/' :: base).reverse = base.reverse ++ '/' :: dir.reverse := by simp
  rw [hslash, List.dropWhile_append, dropWhile_of_not_mem h]
  rfl

theorem startDir_of_append {file : String} {dir base : List Char}
    (hfile : file.toList = dir ++ '/' :: base) (hbase : '/' ∉ base) :
    startDir file = if dir = [] then "/" else String.ofList dir := by
  rw [startDir, hfile, dropWhile_of_append hbase]
  rcases List.eq_nil_or_concat' dir with rfl | ⟨front, c, rfl⟩
  · rfl
  · simp

/-- A command is started in the directory in which names are resolved. -/
theorem ofText_startDir (file : String) :
    ofText ((startDir file).toList ++ ['/']) = ofText (parent file).toList := by
  obtain hnone | ⟨dir, base, hfile, hbase⟩ := base_cases file.toList
  · rw [startDir, parent, dropWhile_of_not_mem hnone]
    rfl
  · rw [startDir_of_append hfile hbase, parent, hfile, dropWhile_of_append hbase]
    split
    · rename_i hdir
      rw [hdir]
      rfl
    · simp

theorem not_mem_startDir {file : String} (h : '\\' ∉ file.toList) :
    '\\' ∉ (startDir file).toList := by
  obtain hnone | ⟨dir, base, hfile, hbase⟩ := base_cases file.toList
  · rw [startDir, dropWhile_of_not_mem hnone]
    decide
  · rw [startDir_of_append hfile hbase]
    split
    · decide
    · rw [String.toList_ofList]
      exact fun hmem => h (hfile ▸ List.mem_append_left _ hmem)

/-- A name that is no absolute path: it begins with neither kind of slash. -/
def Relative (name : String) : Prop :=
  name.toList.head? ≠ some '/' ∧ name.toList.head? ≠ some '\\'

instance (name : String) : Decidable (Relative name) :=
  inferInstanceAs (Decidable (_ ∧ _))

theorem Relative.isAbsolute_eq {name : String} (h : Relative name) :
    isAbsolute (forward name).toList = false := by
  rw [forward, String.toList_ofList, isAbsolute, List.head?_map]
  cases hfirst : name.toList.head? with
  | none => rfl
  | some c =>
    have hslash : c ≠ '/' := fun hc => h.1 (hfirst.trans (congrArg some hc))
    have hback : c ≠ '\\' := fun hc => h.2 (hfirst.trans (congrArg some hc))
    simp [hslash, hback]

theorem isAbsolute_of_not_relative {name : String} (h : ¬ Relative name) :
    isAbsolute (forward name).toList = true := by
  rw [forward, String.toList_ofList, isAbsolute, List.head?_map]
  by_cases hslash : name.toList.head? = some '/'
  · rw [hslash]
    rfl
  · have hback : name.toList.head? = some '\\' := by
      by_contra hback
      exact h ⟨hslash, hback⟩
    rw [hback]
    rfl

/-- A name that is not relative stands on its own. -/
theorem resolve_of_not_relative {name : String} (h : ¬ Relative name) (dir : String) :
    resolve dir name = normalize name := by
  rw [normalize, resolve, resolve, isAbsolute_of_not_relative h]
  rfl

/-- Joined to the directory of a file, a name folds to what it is resolved to beside the file. -/
theorem normalize_startDir {file name : String} (hfile : '\\' ∉ file.toList) (hname : Relative name) :
    normalize (startDir file ++ "/" ++ name) = resolve (parent file) name := by
  have hdir : forward (startDir file ++ "/") = startDir file ++ "/" := by
    refine forward_of_not_mem fun hmem => ?_
    rw [String.toList_append, List.mem_append] at hmem
    rcases hmem with hmem | hmem
    · exact not_mem_startDir hfile hmem
    · exact absurd hmem (by decide)
  have htarget : (forward (startDir file ++ "/" ++ name)).toList =
      (startDir file).toList ++ '/' :: (forward name).toList := by
    rw [forward_append, hdir, String.toList_append, String.toList_append, List.append_assoc]
    rfl
  rw [normalize_eq, htarget, ofText_append, ofText_startDir, resolve]
  simp only [hname.isAbsolute_eq]
  rfl

/-! ### One name after another -/

/-- Where a name leads from a directory. -/
def target (base name : List Char) : Path :=
  if isAbsolute name then ofText name else (ofText base).descend name

theorem resolve_eq (base name : String) : resolve base name =
    forward (String.ofList (target base.toList (forward name).toList).toText) :=
  rfl

theorem proper_target {base name : List Char} (hbase : '\\' ∉ base) (hname : '\\' ∉ name) :
    (target base name).Proper := by
  unfold target
  split
  · exact proper_ofText hname
  · exact proper_descend (proper_ofText hbase) hname

/-- A name goes on from where the one ahead of it leads; only the first can be absolute. -/
theorem target_append (base : List Char) {first : List Char} (hfirst : first ≠ [])
    (rest : List Char) : target base (first ++ '/' :: rest) = (target base first).descend rest := by
  have habsolute : isAbsolute (first ++ '/' :: rest) = isAbsolute first := by
    obtain ⟨c, cs, rfl⟩ := List.exists_cons_of_ne_nil hfirst
    rfl
  unfold target
  rw [habsolute]
  split
  · rw [ofText, habsolute, descend_append]
    rfl
  · exact descend_append _ first rest

/-- From the text of a path a relative name leads where it leads from the path. -/
theorem resolve_toText {p : Path} (hp : p.Proper) {name : String} (hname : Relative name) :
    resolve (String.ofList p.toText) name =
      forward (String.ofList (p.descend (forward name).toList).toText) := by
  rw [resolve_eq, target, hname.isAbsolute_eq, String.toList_ofList, ofText_toText hp]
  rfl

/-- Names can be resolved one after the other or joined first. The text of what the first one comes
to, be it empty, the root or one that climbs, holds all that the second one needs. -/
theorem resolve_resolve {base first name : String} (hbase : '\\' ∉ base.toList)
    (hfirst : first ≠ "") (hname : Relative name) :
    resolve (resolve base first) name = resolve base (first ++ "/" ++ name) := by
  have hproper := proper_target hbase (not_mem_forward first)
  have hkept : resolve base first =
      String.ofList (target base.toList (forward first).toList).toText := by
    apply forward_of_not_mem
    rw [String.toList_ofList]
    exact not_mem_toText hproper
  have hjoined : (forward (first ++ "/" ++ name)).toList =
      (forward first).toList ++ '/' :: (forward name).toList := by
    rw [forward_append, forward_append, String.toList_append, String.toList_append,
      List.append_assoc]
    rfl
  have hne : (forward first).toList ≠ [] := by
    rw [forward, String.toList_ofList]
    intro hnil
    exact hfirst (String.toList_inj.1 (List.map_eq_nil_iff.1 hnil))
  rw [hkept, resolve_toText hproper hname, resolve_eq, hjoined, target_append _ hne]

/-- The first name climbs out of the directory, and the second one out of what is left. -/
theorem resolve_resolve_climbing : '\\' ∉ "a".toList ∧ "..\\./../b/" ≠ "" ∧
    Relative "../..\\x//." ∧ resolve "a" "..\\./../b/" = "../b" ∧
    resolve "../b" "../..\\x//." = "../../x" ∧
    resolve "a" "..\\./../b//../..\\x//." = "../../x" := by
  have hbase : '\\' ∉ "a".toList := by decide
  have hfirst : "..\\./../b/" ≠ "" := by decide
  have hname : Relative "../..\\x//." := by decide
  have hclimbed : resolve "a" "..\\./../b/" = "../b" := by decide +kernel
  have hleft : resolve "../b" "../..\\x//." = "../../x" := by decide +kernel
  have hboth := resolve_resolve hbase hfirst hname
  rw [hclimbed, hleft] at hboth
  exact ⟨hbase, hfirst, hname, hclimbed, hleft, hboth.symm⟩

end WarmCompile.Path
