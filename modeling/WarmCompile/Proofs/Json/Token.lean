import Mathlib.Data.List.Basic
import WarmCompile.Json.Print
import WarmCompile.Json.Token

/-!
Quoted texts and whole numbers are read back as they were written.
-/

namespace WarmCompile.Json

/-! ### Quoted texts -/

theorem hexDigit?_hexDigit : ∀ n < 16, hexDigit? (hexDigit n) = some n := by
  decide

theorem readHex_hexDigits {n : Nat} (hn : n < 0x20) (r : List Char) :
    readHex ('0' :: '0' :: hexDigit (n / 16) :: hexDigit (n % 16) :: r) = .ok (n, r) := by
  have hhigh := hexDigit?_hexDigit (n / 16) (by omega)
  have hlow := hexDigit?_hexDigit (n % 16) (by omega)
  have hzero : hexDigit? '0' = some 0 := rfl
  have hsum : 16 * (n / 16) + n % 16 = n := by omega
  simp [readHex, hexDigits?, hzero, hhigh, hlow, hsum]

/-- A control character that is written by number. -/
theorem readEscape_control {c : Char} (hc : c < ' ') (r : List Char) :
    readEscape ('u' :: '0' :: '0' :: hexDigit (c.toNat / 16) :: hexDigit (c.toNat % 16) :: r) =
      .ok (c, r) := by
  have hn : c.toNat < 0x20 := hc
  have hlead : isLeadSurrogate c.toNat = false := by
    simp only [isLeadSurrogate, Bool.and_eq_false_iff, decide_eq_false_iff_not]
    omega
  have htrail : isTrailSurrogate c.toNat = false := by
    simp only [isTrailSurrogate, Bool.and_eq_false_iff, decide_eq_false_iff_not]
    omega
  simp only [readEscape, readUnicode, readHex_hexDigits hn, if_true]
  simp [bind, Except.bind, pure, Except.pure, hlead, htrail]

theorem readText_of_readEscape {c : Char} {s r r' rest : List Char}
    (hescape : readEscape r = .ok (c, r')) (h : readText r' = .ok (s, rest)) :
    readText ('\\' :: r) = .ok (c :: s, rest) := by
  rw [readText.eq_def]
  simp only
  split
  · rename_i f hf
    rw [hescape] at hf
    cases hf
  · rename_i c' r'' hr
    rw [hescape] at hr
    cases hr
    rw [h]

/-- A character is written with a backslash and a letter, by number, or as it is. -/
theorem escapeChar_cases (c : Char) :
    (∃ e, e ≠ 'u' ∧ ' ' ≤ e ∧ shortEscape? e = some c ∧ escapeChar c = ['\\', e]) ∨
    (c < ' ' ∧ escapeChar c =
      ['\\', 'u', '0', '0', hexDigit (c.toNat / 16), hexDigit (c.toNat % 16)]) ∨
    (c ≠ '"' ∧ c ≠ '\\' ∧ ' ' ≤ c ∧ escapeChar c = [c]) := by
  unfold escapeChar
  split
  · exact .inl ⟨'"', by decide, by decide, by subst_vars; rfl, rfl⟩
  split
  · exact .inl ⟨'\\', by decide, by decide, by subst_vars; rfl, rfl⟩
  split
  · exact .inl ⟨'b', by decide, by decide, by subst_vars; rfl, rfl⟩
  split
  · exact .inl ⟨'t', by decide, by decide, by subst_vars; rfl, rfl⟩
  split
  · exact .inl ⟨'n', by decide, by decide, by subst_vars; rfl, rfl⟩
  split
  · exact .inl ⟨'f', by decide, by decide, by subst_vars; rfl, rfl⟩
  split
  · exact .inl ⟨'r', by decide, by decide, by subst_vars; rfl, rfl⟩
  split
  · rename_i hcontrol
    exact .inr (.inl ⟨hcontrol, rfl⟩)
  · rename_i hmark hslash _ _ _ _ _ hcontrol
    exact .inr (.inr ⟨hmark, hslash, Char.not_lt.1 hcontrol, rfl⟩)

/-- Any character is read back from what is written for it. -/
theorem readText_escapeChar (c : Char) {s r rest : List Char} (h : readText r = .ok (s, rest)) :
    readText (escapeChar c ++ r) = .ok (c :: s, rest) := by
  rcases escapeChar_cases c with ⟨e, hu, -, hshort, hc⟩ | ⟨hcontrol, hc⟩ | ⟨hmark, hslash, hplain, hc⟩
  · have hescape : readEscape (e :: r) = .ok (c, r) := by
      simp only [readEscape, if_neg hu, hshort]
    rw [hc]
    exact readText_of_readEscape hescape h
  · rw [hc]
    exact readText_of_readEscape (readEscape_control hcontrol r) h
  · rw [hc, List.singleton_append, readText.eq_def]
    split
    · rename_i heq
      cases heq
    · rename_i heq
      exact absurd (List.cons.inj heq).1 hmark
    · rename_i heq
      exact absurd (List.cons.inj heq).1 hslash
    · rename_i heq
      cases heq
      rw [if_neg (Char.not_lt.2 hplain), h]

theorem readText_flatMap (s rest : List Char) :
    readText (s.flatMap escapeChar ++ '"' :: rest) = .ok (s, rest) := by
  induction s with
  | nil => rw [List.flatMap_nil, List.nil_append, readText]
  | cons c s ih =>
    rw [List.flatMap_cons, List.append_assoc]
    exact readText_escapeChar c ih

theorem readString_quote (s : String) (rest : List Char) :
    readString ((quote s).tail ++ rest) = .ok (s, rest) := by
  have htail : (quote s).tail ++ rest = s.toList.flatMap escapeChar ++ '"' :: rest := by
    simp [quote]
  simp only [htail, readString, readText_flatMap, String.ofList_toList]

/-! ### Whole numbers -/

/-- What can follow a value. -/
def Ends (rest : List Char) : Prop :=
  ∀ c ∈ rest.head?, c = ',' ∨ c = ']' ∨ c = '\x7d'

theorem ends_nil : Ends [] := nofun

theorem Ends.not_digit {rest : List Char} (h : Ends rest) : ∀ c ∈ rest.head?, isDigit c = false := by
  intro c hc
  rcases h c hc with rfl | rfl | rfl <;> rfl

theorem isDigit_of_mem_toDigits {n : Nat} : ∀ c ∈ Nat.toDigits 10 n, isDigit c = true := by
  intro c hc
  exact Nat.isDigit_of_mem_toDigits (by decide) (by decide) hc

theorem readDigits_append {ds rest : List Char} (hds : ∀ c ∈ ds, isDigit c = true)
    (hrest : ∀ c ∈ rest.head?, isDigit c = false) : readDigits (ds ++ rest) = (ds, rest) := by
  have htake : rest.takeWhile isDigit = [] := by
    cases rest with
    | nil => rfl
    | cons c r => exact List.takeWhile_cons_of_neg (by simp [hrest c rfl])
  have hdrop : rest.dropWhile isDigit = rest := by
    cases rest with
    | nil => rfl
    | cons c r => exact List.dropWhile_cons_of_neg (by simp [hrest c rfl])
  rw [readDigits, List.takeWhile_append_of_pos hds, List.dropWhile_append_of_pos hds, htake, hdrop,
    List.append_nil]

theorem le_ofDigitChars (ds : List Char) (m : Nat) : m ≤ Nat.ofDigitChars 10 ds m := by
  induction ds generalizing m with
  | nil => exact Nat.le_refl m
  | cons d ds ih =>
    have hmore := ih (10 * m + digitValue d)
    have hhere : m ≤ 10 * m + digitValue d := by omega
    exact Nat.le_trans hhere hmore

/-- Digits that fit are all taken in. -/
theorem accumulate_eq {ds : List Char} {m : Nat} (h : Nat.ofDigitChars 10 ds m < 0x10000000000000000) :
    accumulate m ds = (Nat.ofDigitChars 10 ds m, 0) := by
  induction ds generalizing m with
  | nil => rfl
  | cons d ds ih =>
    have hfits : 10 * m + digitValue d < 0x10000000000000000 :=
      Nat.lt_of_le_of_lt (le_ofDigitChars ds (10 * m + digitValue d)) h
    rw [accumulate, if_neg (by omega)]
    exact ih h

/-- Only zero is written with a zero in front. -/
theorem toDigits_head {n : Nat} {c : Char} {r : List Char} (h : Nat.toDigits 10 n = c :: r)
    (hc : c = '0') : r = [] := by
  induction n using Nat.strongRecOn generalizing r with
  | ind n ih =>
    rw [Nat.toDigits_eq_if (by decide)] at h
    split at h
    · exact (List.cons.inj h).2.symm
    · rename_i hn
      cases hfront : Nat.toDigits 10 (n / 10) with
      | nil => exact absurd hfront Nat.toDigits_ne_nil
      | cons c' r' =>
        rw [hfront, List.cons_append] at h
        obtain ⟨rfl, -⟩ := List.cons.inj h
        have hr' := ih (n / 10) (by omega) hfront
        have hvalue := Nat.ofDigitChars_toDigits (b := 10) (n := n / 10) (by decide) (by decide)
        rw [hfront, hr', hc] at hvalue
        have hzero : Nat.ofDigitChars 10 ['0'] 0 = 0 := rfl
        omega

/-- Whole numbers of 64 bits. -/
def Number.Whole : Number → Prop
  | .natural n => n < 0x10000000000000000
  | .negative n => 0 < n ∧ n ≤ 0x8000000000000000
  | .real _ => False

theorem readNumber_toDigits {n : Nat} (hn : n < 0x10000000000000000) (negative : Bool) {rest : List Char}
    (hrest : Ends rest) :
    readNumber negative (Nat.toDigits 10 n ++ rest) =
      if !negative then .ok (.natural n, rest)
      else if n = 0 ∨ 0x8000000000000000 < n then readReal true n 0 rest
      else .ok (.negative n, rest) := by
  have hread := readDigits_append (isDigit_of_mem_toDigits (n := n)) hrest.not_digit
  have hvalue := Nat.ofDigitChars_toDigits (b := 10) (n := n) (by decide) (by decide)
  have hall : accumulate 0 (Nat.toDigits 10 n) = _ := accumulate_eq (by rw [hvalue]; exact hn)
  rw [hvalue] at hall
  cases hds : Nat.toDigits 10 n with
  | nil => exact absurd hds Nat.toDigits_ne_nil
  | cons c r =>
    have hdigit : isDigit c = true := isDigit_of_mem_toDigits c (hds ▸ List.mem_cons_self)
    have hzero : ¬ (c = '0' ∧ (r ++ rest).head?.any isDigit = true) := by
      rintro ⟨hc, hmore⟩
      rw [toDigits_head hds hc, List.nil_append] at hmore
      obtain ⟨d, hd, hdigit⟩ := (Option.any_eq_true _ _).1 hmore
      exact absurd (hdigit.symm.trans (hrest.not_digit d hd)) (by decide)
    rw [hds] at hread hall
    rw [List.cons_append] at hread ⊢
    rw [readNumber]
    simp only [hdigit, Bool.not_true, Bool.false_eq_true, if_false, hzero, hread, hall]
    split
    · exact absurd (hrest '.' rfl) (by decide)
    · exact absurd (hrest 'e' rfl) (by decide)
    · exact absurd (hrest 'E' rfl) (by decide)
    · simp

end WarmCompile.Json
