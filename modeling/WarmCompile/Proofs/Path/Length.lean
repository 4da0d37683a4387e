import Mathlib.Data.String.Basic
import WarmCompile.Proofs.Path.Canonical

/-!
What folding keeps of a path: segments of the path, which take no more room than all of them.
-/

namespace WarmCompile.Path

/-- A step along a path leads nowhere, adds its segment, or takes back the last name. -/
theorem child_cases (p : Path) (segment : List Char) :
    (p.child segment = p ∧ (segment = [] ∨ segment = ['.'] ∨
      segment = ['.', '.'] ∧ p.rooted = true ∧ p.names = [])) ∨
    (p.child segment).segments = p.segments ++ [segment] ∨
    segment = ['.', '.'] ∧ ∃ names name, p.names = names ++ [name] ∧
      p.child segment = { p with names := names } := by
  unfold child
  split
  · rename_i hdot
    exact .inl ⟨rfl, hdot.imp_right .inl⟩
  · split
    · rename_i hdots
      rcases List.eq_nil_or_concat' p.names with hnames | ⟨names, name, hnames⟩
      · rw [if_pos hnames]
        split
        · rename_i hrooted
          exact .inl ⟨rfl, .inr (.inr ⟨hdots, hrooted, hnames⟩)⟩
        · right
          left
          rw [segments, segments, hnames, hdots, List.append_nil, List.append_nil]
          exact List.replicate_succ'
      · right
        right
        rw [if_neg (by simp [hnames]), hnames, List.dropLast_concat]
        exact ⟨hdots, names, name, rfl, rfl⟩
    · right
      left
      exact (List.append_assoc _ _ _).symm

/-! ### The segments that are kept -/

theorem mem_segments_child {p : Path} {segment s : List Char}
    (h : s ∈ (p.child segment).segments) : s ∈ p.segments ∨ s = segment := by
  rcases child_cases p segment with ⟨hchild, -⟩ | hchild | ⟨-, names, name, hnames, hchild⟩
  · exact .inl (hchild ▸ h)
  · rw [hchild] at h
    exact (List.mem_append.1 h).imp_right List.mem_singleton.1
  · rw [hchild] at h
    left
    rw [segments, hnames]
    rcases List.mem_append.1 h with h | h
    · exact List.mem_append_left _ h
    · exact List.mem_append_right _ (List.mem_append_left _ h)

theorem mem_segments_foldl {p : Path} {segments : List (List Char)} {s : List Char}
    (h : s ∈ (segments.foldl child p).segments) : s ∈ p.segments ∨ s ∈ segments := by
  induction segments generalizing p with
  | nil => exact .inl h
  | cons segment segments ih =>
    rcases ih h with h | h
    · rcases mem_segments_child h with h | rfl
      · exact .inl h
      · exact .inr List.mem_cons_self
    · exact .inr (List.mem_cons_of_mem _ h)

/-- Each segment of a folded path is one of the path. -/
theorem mem_segments_ofText {text s : List Char} (h : s ∈ (ofText text).segments) :
    s ∈ text.splitOn '/' :=
  (mem_segments_foldl h).resolve_left List.not_mem_nil

/-! ### The room they take -/

/-- How many bytes segments take with a slash behind each. -/
def room : List (List Char) → Nat
  | [] => 0
  | s :: segments => String.utf8Len s + 1 + room segments

theorem room_append (segments more : List (List Char)) :
    room (segments ++ more) = room segments + room more := by
  induction segments with
  | nil => exact (Nat.zero_add _).symm
  | cons s segments ih => rw [List.cons_append, room, room, ih, Nat.add_assoc (String.utf8Len s + 1)]

/-- No slash stands behind the last of the segments of a text. -/
theorem room_of_ne_nil {segments : List (List Char)} (h : segments ≠ []) :
    room segments = String.utf8Len (['/'].intercalate segments) + 1 := by
  induction segments with
  | nil => exact absurd rfl h
  | cons s segments ih =>
    cases segments with
    | nil => simp [room]
    | cons s' segments =>
      rw [room, ih (List.cons_ne_nil _ _), List.intercalate_cons_cons, String.utf8Len_append,
        String.utf8Len_append]
      change _ = String.utf8Len s + 1 + _ + 1
      omega

theorem room_child_le (p : Path) (segment : List Char) :
    room (p.child segment).segments ≤ room p.segments + (String.utf8Len segment + 1) := by
  rcases child_cases p segment with ⟨hchild, -⟩ | hchild | ⟨-, names, name, hnames, hchild⟩
  · rw [hchild]
    exact Nat.le_add_right _ _
  · rw [hchild, room_append]
    exact Nat.le_refl _
  · rw [hchild]
    simp only [segments, hnames, room_append]
    omega

theorem room_foldl_le (p : Path) (segments : List (List Char)) :
    room (segments.foldl child p).segments ≤ room p.segments + room segments := by
  induction segments generalizing p with
  | nil => exact Nat.le_refl _
  | cons s segments ih =>
    have hrest := ih (p.child s)
    have hfirst := room_child_le p s
    rw [List.foldl_cons, room]
    omega

/-- All segments of a text take one byte more than the text. -/
theorem room_descend_le (p : Path) (text : List Char) :
    room (p.descend text).segments ≤ room p.segments + (String.utf8Len text + 1) := by
  have hfold := room_foldl_le p (text.splitOn '/')
  rwa [room_of_ne_nil (List.splitOn_ne_nil '/' text), List.intercalate_splitOn] at hfold

theorem utf8Len_intercalate (segments : List (List Char)) :
    String.utf8Len (['/'].intercalate segments) = room segments - 1 := by
  by_cases h : segments = []
  · rw [h]
    rfl
  · rw [room_of_ne_nil h]
    rfl

/-- Folding makes no path longer. -/
theorem utf8Len_toText_le (text : List Char) :
    String.utf8Len (ofText text).toText ≤ String.utf8Len text := by
  have hrooted : (ofText text).rooted = isAbsolute text := rooted_descend _ _
  cases habsolute : isAbsolute text with
  | false =>
    have hroom := room_descend_le ⟨isAbsolute text, 0, []⟩ text
    change room (ofText text).segments ≤ 0 + _ at hroom
    rw [toText, if_neg (by simp [hrooted, habsolute]), utf8Len_intercalate]
    omega
  | true =>
    obtain ⟨rest, rfl⟩ := isAbsolute_iff.1 habsolute
    -- What stands ahead of the first slash is empty, so it takes no room of its own.
    have hroot : ofText ('/' :: rest) = descend ⟨true, 0, []⟩ rest := ofText_append [] rest
    have hroom := room_descend_le ⟨true, 0, []⟩ rest
    rw [← hroot] at hroom
    change room (ofText ('/' :: rest)).segments ≤ 0 + _ at hroom
    rw [toText, if_pos (by rw [hrooted, habsolute]), String.utf8Len_cons, String.utf8Len_cons,
      utf8Len_intercalate]
    omega

end WarmCompile.Path
