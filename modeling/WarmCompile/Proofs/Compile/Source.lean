import WarmCompile.Compile.Source

/-!
What a reader holds stays as it is, and a file that is held is not read again.
-/

namespace WarmCompile.SourceReader

variable {r r' r'' : SourceReader} {disk : Disk} {path content : String}

/-- The same files, and no content lost or changed. -/
structure Extends (r r' : SourceReader) : Prop where
  files : r'.files = r.files
  held : ∀ {path content}, r.held.find? path = some content → r'.held.find? path = some content

theorem Extends.refl (r : SourceReader) : Extends r r := ⟨rfl, id⟩

theorem Extends.trans (h : Extends r r') (h' : Extends r' r'') : Extends r r'' :=
  ⟨h'.files.trans h.files, fun hp => h'.held (h.held hp)⟩

theorem read_of_held (hf : path ∈ r.files) (hh : r.held.find? path = some content) :
    r.read disk path = (.ok content, r) := by
  simp [read, contains, hf, hh]

theorem extends_read (h : r.read disk path = (.ok content, r')) : Extends r r' := by
  unfold read at h
  split at h
  · cases h
  · split at h
    · cases h
      exact .refl r
    · rename_i hnone
      split at h
      · cases h
        refine ⟨rfl, fun {p x} hp => ?_⟩
        have hne : p ≠ path := fun he => by simp [he, hnone] at hp
        rw [Table.find?_insert, if_neg hne, hp]
      · cases h

theorem held_of_read (h : r.read disk path = (.ok content, r')) :
    r'.held.find? path = some content := by
  unfold read at h
  split at h
  · cases h
  · split at h
    · rename_i hsome
      cases h
      exact hsome
    · split at h
      · cases h
        rw [Table.find?_insert, if_pos rfl]
      · cases h

/-- What is not held is read from the disk, and nothing else changes. -/
theorem of_read_of_not_held (hheld : r.held.find? path = none)
    (h : r.read disk path = (.ok content, r')) :
    disk.read path = .ok content ∧ ∀ p, p ≠ path → r'.held.find? p = r.held.find? p := by
  unfold read at h
  split at h
  · cases h
  · rw [hheld] at h
    dsimp only at h
    split at h
    · rename_i hread
      cases h
      refine ⟨hread, fun p hp => ?_⟩
      rw [Table.find?_insert, if_neg hp]
    · cases h

end WarmCompile.SourceReader
