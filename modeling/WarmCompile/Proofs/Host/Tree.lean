import Mathlib.Data.Nat.Digits.Defs
import Mathlib.Data.Set.Card
import Mathlib.Order.Interval.Finset.Nat
import WarmCompile.Host.Tree
import WarmCompile.Proofs.Project.Offence

/-!
Locations in a tree, and how many paths there can be that lead to a file in it.
-/

namespace WarmCompile

namespace Node

variable {n : Node} {here : List String} {entries : List (String × Node)}

theorem get?_append (n : Node) (here more : List String) :
    n.get? (here ++ more) = (n.get? here).bind (·.get? more) := by
  induction here generalizing n with
  | nil => rfl
  | cons name here ih =>
    rw [List.cons_append, get?, get?]
    cases n.child? name with
    | none => rfl
    | some c => exact ih c

/-- Whatever has something below it is a directory, and so is what lies above a directory. -/
theorem get?_dropLast (h : n.get? here = some (.directory entries)) :
    ∃ above, n.get? here.dropLast = some (.directory above) := by
  rcases List.eq_nil_or_concat' here with rfl | ⟨here, name, rfl⟩
  · exact ⟨entries, h⟩
  · rw [List.dropLast_concat]
    rw [get?_append] at h
    obtain ⟨parent, hparent, h⟩ := Option.bind_eq_some_iff.1 h
    cases parent with
    | directory above => exact ⟨above, hparent⟩
    | file => cases h
    | socket => cases h

end Node

namespace Tree

variable {t : Tree} {path : String}

/-- Where one segment leads. -/
def advance (here : List String) (segment : String) : List String :=
  if segment = "." ∨ segment = "" then here
  else if segment = ".." then here.dropLast
  else here ++ [segment]

theorem isFile_iff : t.isFile path = true ↔ ∃ there content mode,
    t.locate path = .ok there ∧ t.root.get? there = some (.file content mode) := by
  unfold isFile find?
  cases t.locate path with
  | error e => simp [bind, Except.bind]
  | ok there =>
    simp only [bind, Except.bind]
    cases hget : t.root.get? there with
    | none => simp [hget]
    | some n => cases n <;> simp [hget, pure, Except.pure]

/-! ### How many there are -/

/-- A text as a number: its bytes are the digits, and a one stands ahead of them. -/
def number (s : String) : Nat :=
  Nat.ofDigits 256 (s.toByteArray.data.toList.map UInt8.toNat ++ [1])

theorem digits_number (s : String) :
    Nat.digits 256 (number s) = s.toByteArray.data.toList.map UInt8.toNat ++ [1] := by
  refine Nat.digits_ofDigits 256 (by decide) _ (fun d hd => ?_) fun _ => ?_
  · rcases List.mem_append.1 hd with hd | hd
    · obtain ⟨b, -, rfl⟩ := List.mem_map.1 hd
      exact b.toNat_lt
    · rw [List.mem_singleton.1 hd]
      decide
  · rw [List.getLast_append_singleton]
    decide

theorem number_injective : Function.Injective number := by
  intro s s' h
  have hdigits := (digits_number s).symm.trans ((congrArg _ h).trans (digits_number s'))
  have hbytes := List.map_injective_iff.2 (fun _ _ => UInt8.toNat_inj.1)
    (List.append_cancel_right hdigits)
  exact String.toByteArray_inj.1 (ByteArray.ext (Array.toList_inj.1 hbytes))

theorem number_pos (s : String) : 0 < number s := by
  refine Nat.pos_of_ne_zero fun h => ?_
  have hdigits := digits_number s
  rw [h, Nat.digits_zero] at hdigits
  exact absurd hdigits.symm (by simp)

theorem number_lt {s : String} {limit : Nat} (h : s.utf8ByteSize < limit) :
    number s < 256 ^ limit := by
  have hdigits : ∀ d ∈ s.toByteArray.data.toList.map UInt8.toNat ++ [1], d < 256 := by
    rw [← digits_number]
    exact fun d hd => Nat.digits_lt_base (by decide) hd
  refine Nat.lt_of_lt_of_le (Nat.ofDigits_lt_base_pow_length (by decide) hdigits) ?_
  refine Nat.pow_le_pow_right (by decide) ?_
  rw [List.length_append, List.length_map, Array.length_toList]
  exact h

theorem size_lt_of_isFile (hfile : t.isFile path = true) : path.utf8ByteSize < pathLimit := by
  obtain ⟨there, content, mode, hlocate, -⟩ := isFile_iff.1 hfile
  unfold locate at hlocate
  split at hlocate
  · cases hlocate
  · split at hlocate
    · cases hlocate
    · split at hlocate
      · cases hlocate
      · rename_i hsize
        exact Nat.lt_of_not_le hsize

/-- There are fewer texts below a size than numbers of that many bytes. -/
theorem exists_texts_lt (limit : Nat) : ∃ texts : List String,
    (∀ s : String, s.utf8ByteSize < limit → s ∈ texts) ∧ texts.length < Nat.pow 256 limit := by
  have hmaps : Set.MapsTo number {s | s.utf8ByteSize < limit} (Finset.Ico 1 (256 ^ limit)) :=
    fun s hs => Finset.mem_coe.2 (Finset.mem_Ico.2 ⟨number_pos s, number_lt hs⟩)
  have hfinite : {s : String | s.utf8ByteSize < limit}.Finite :=
    Set.Finite.of_injOn hmaps number_injective.injOn (Finset.finite_toSet _)
  refine ⟨hfinite.toFinset.toList, fun s hs => ?_, ?_⟩
  · exact Finset.mem_toList.2 (hfinite.mem_toFinset.2 hs)
  · have hcard : hfinite.toFinset.card ≤ (Finset.Ico 1 (256 ^ limit)).card :=
      Finset.card_le_card_of_injOn number (fun s hs => hmaps (hfinite.mem_toFinset.1 hs))
        number_injective.injOn
    have hpos : 0 < 256 ^ limit := Nat.pow_pos (by decide)
    rw [Nat.card_Ico] at hcard
    rw [Finset.length_toList]
    change _ < 256 ^ limit
    omega

/-- Fewer paths than a walk has fuel can name a file of a tree. -/
theorem bounded_disk (t : Tree) : t.disk.Bounded := by
  have hsize : ∀ p, t.isFile p = true → p.utf8ByteSize < pathLimit := fun p => size_lt_of_isFile
  unfold Disk.Bounded disk reach
  -- The bound is too large a number to be looked at.
  generalize pathLimit = limit at hsize ⊢
  obtain ⟨texts, hall, hlength⟩ := exists_texts_lt limit
  exact ⟨texts, fun p hp => hall p (hsize p hp), hlength⟩

end Tree

end WarmCompile
