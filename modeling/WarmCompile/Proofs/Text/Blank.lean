import WarmCompile.Text.Blank

/-!
When cutting the white space off a text leaves it as it is.
-/

namespace WarmCompile.Text

theorem trimStart_suffix (cs : List Char) : trimStart cs <:+ cs :=
  List.dropWhile_suffix isBlank

theorem trimStart_eq_self_iff {cs : List Char} :
    trimStart cs = cs ↔ ∀ c, cs.head? = some c → isBlank c = false := by
  cases cs with
  | nil => exact ⟨fun _ => nofun, fun _ => rfl⟩
  | cons c cs =>
    simp only [trimStart, List.head?_cons, Option.some.injEq, forall_eq']
    cases hblank : isBlank c with
    | false => simp [hblank]
    | true =>
      have hshort := (trimStart_suffix cs).length_le
      simp only [List.dropWhile_cons_of_pos hblank, Bool.true_eq_false, iff_false]
      intro h
      have hlength := congrArg List.length h
      rw [List.length_cons] at hlength
      change (trimStart cs).length = _ at hlength
      omega

theorem trimEnd_eq_self_iff {cs : List Char} :
    trimEnd cs = cs ↔ ∀ c, cs.getLast? = some c → isBlank c = false := by
  rw [trimEnd, List.reverse_eq_iff, trimStart_eq_self_iff, List.head?_reverse]

/-- A text is as it is cut if neither its first nor its last character is blank. -/
theorem trim_eq_self_iff {cs : List Char} : trim cs = cs ↔
    (∀ c, cs.head? = some c → isBlank c = false) ∧ ∀ c, cs.getLast? = some c → isBlank c = false := by
  rw [← trimStart_eq_self_iff, ← trimEnd_eq_self_iff]
  constructor
  · intro h
    have hend : (trim cs).length ≤ (trimStart cs).length := by
      have hcut := (trimStart_suffix (trimStart cs).reverse).length_le
      rw [List.length_reverse] at hcut
      rwa [trim, trimEnd, List.length_reverse]
    have hstart : trimStart cs = cs := by
      apply (trimStart_suffix cs).eq_of_length
      have hall := (trimStart_suffix cs).length_le
      rw [h] at hend
      omega
    rw [trim, hstart] at h
    exact ⟨hstart, h⟩
  · rintro ⟨hstart, hend⟩
    rw [trim, hstart, hend]

theorem not_isBlank_of_head_trimStart {cs : List Char} {c : Char}
    (h : (trimStart cs).head? = some c) : isBlank c = false := by
  have hnot := List.head?_dropWhile_not isBlank cs
  rw [trimStart] at h
  rw [h] at hnot
  exact hnot

theorem trimEnd_initial (cs : List Char) : trimEnd cs <+: cs := by
  have hsuffix := trimStart_suffix cs.reverse
  rwa [← List.reverse_prefix, List.reverse_reverse] at hsuffix

theorem trim_sublist {cs : List Char} : (trim cs).Sublist cs :=
  (trimEnd_initial _).sublist.trans (trimStart_suffix cs).sublist

theorem trim_trim (cs : List Char) : trim (trim cs) = trim cs := by
  refine trim_eq_self_iff.2 ⟨fun c hc => ?_, fun c hc => ?_⟩
  · obtain ⟨more, hmore⟩ := trimEnd_initial (trimStart cs)
    have hhead : (trimStart cs).head? = some c := by
      rw [← hmore, List.head?_append]
      exact congrArg (Option.or · _) hc
    exact not_isBlank_of_head_trimStart hhead
  · rw [trim, trimEnd, List.getLast?_reverse] at hc
    exact not_isBlank_of_head_trimStart hc

end WarmCompile.Text
