import Mathlib.Data.List.Basic
import WarmCompile.Wire.Lines

/-!
Lines survive the stream: however its bytes are cut, they are read in the order in which they were
written, each as it was.
-/

namespace WarmCompile.Lines

/-! ### The bytes of a text -/

theorem toList_loop (bs : ByteArray) (i : Nat) (r : List UInt8) :
    ByteArray.toList.loop bs i r = r.reverse ++ bs.data.toList.drop i := by
  have hsize : bs.data.toList.length = bs.size := Array.length_toList
  induction hn : bs.size - i generalizing i r with
  | zero =>
    have hend : bs.size ≤ i := Nat.sub_eq_zero_iff_le.1 hn
    rw [ByteArray.toList.loop.eq_1, if_neg (Nat.not_lt.2 hend),
      List.drop_eq_nil_of_le (hsize.symm ▸ hend), List.append_nil]
  | succ n ih =>
    have hi : i < bs.size := by omega
    have hlt : i < bs.data.toList.length := hsize.symm ▸ hi
    have hget : bs.get! i = bs.data.toList[i] := by
      change bs.data[i]! = _
      rw [getElem!_pos bs.data i hi, Array.getElem_toList]
    rw [ByteArray.toList.loop.eq_1, if_pos hi, ih (i + 1) (bs.get! i :: r) (by omega),
      List.drop_eq_getElem_cons hlt, List.reverse_cons, List.append_assoc, hget]
    rfl

theorem toUTF8_toList (s : String) : s.toUTF8.toList = s.toByteArray.data.toList :=
  toList_loop s.toByteArray 0 []

theorem toUTF8_eq_flatMap (s : String) :
    s.toUTF8.toList = s.toList.flatMap String.utf8EncodeChar := by
  have hbytes : s.toByteArray = s.toList.utf8Encode := by
    rw [← String.toByteArray_ofList, String.ofList_toList]
  rw [toUTF8_toList, hbytes]
  exact List.toList_data_toByteArray

/-- A byte of seven bits is a character of its own. -/
theorem toNat_of_mem_utf8EncodeChar {c : Char} {b : UInt8} (hb : b.toNat < 128)
    (h : b ∈ String.utf8EncodeChar c) : b.toNat = c.toNat := by
  have htoNat : c.toNat = c.val.toNat := rfl
  unfold String.utf8EncodeChar at h
  simp only at h
  split at h
  · rw [List.mem_singleton] at h
    rw [h, UInt8.toNat_ofNat']
    omega
  split at h
  · simp only [List.mem_cons, List.not_mem_nil, or_false] at h
    rcases h with rfl | rfl <;> (rw [UInt8.toNat_ofNat'] at hb; omega)
  split at h
  · simp only [List.mem_cons, List.not_mem_nil, or_false] at h
    rcases h with rfl | rfl | rfl <;> (rw [UInt8.toNat_ofNat'] at hb; omega)
  · simp only [List.mem_cons, List.not_mem_nil, or_false] at h
    rcases h with rfl | rfl | rfl | rfl <;> (rw [UInt8.toNat_ofNat'] at hb; omega)

theorem eq_ofNat_of_mem {c : Char} {b : UInt8} (hb : b.toNat < 128)
    (h : b ∈ String.utf8EncodeChar c) : c = Char.ofNat b.toNat := by
  rw [toNat_of_mem_utf8EncodeChar hb h, Char.ofNat_toNat]

/-- The bytes of a text are read as that text. -/
theorem strict?_toUTF8 (s : String) : Text.strict? s.toUTF8.toList = some s := by
  have hbytes : (⟨s.toUTF8.toList.toArray⟩ : ByteArray) = s.toByteArray := by
    rw [toUTF8_toList, Array.toArray_toList]
  rw [Text.strict?, hbytes, String.fromUTF8?, dif_pos s.isValidUTF8]
  rfl

/-! ### Frames -/

/-- A text that the stream gives back: it neither breaks a line nor ends as a break does. -/
structure Unbroken (line : String) : Prop where
  noFeed : '\n' ∉ line.toList
  noReturn : line.toList.getLast? ≠ some '\r'

variable {line : String} {lines : List String} {bytes later : List UInt8}

theorem Unbroken.not_mem (h : Unbroken line) : lineFeed ∉ line.toUTF8.toList := by
  rw [toUTF8_eq_flatMap]
  intro hm
  obtain ⟨c, hc, hb⟩ := List.mem_flatMap.1 hm
  have he : c = '\n' := eq_ofNat_of_mem (by decide) hb
  exact h.noFeed (he ▸ hc)

theorem Unbroken.withoutReturn_eq (h : Unbroken line) :
    withoutReturn line.toUTF8.toList = line.toUTF8.toList := by
  refine if_neg fun hlast => ?_
  rw [toUTF8_eq_flatMap] at hlast
  rcases List.eq_nil_or_concat' line.toList with hnil | ⟨front, c, hconcat⟩
  · rw [hnil] at hlast
    cases hlast
  · obtain ⟨b, hb⟩ := List.exists_mem_of_ne_nil (String.utf8EncodeChar c)
      (List.ne_nil_of_length_pos (by rw [String.length_utf8EncodeChar]; exact c.utf8Size_pos))
    have hsome : (String.utf8EncodeChar c).getLast? = some carriageReturn := by
      rw [hconcat, List.flatMap_append, List.getLast?_append] at hlast
      simp only [List.flatMap_cons, List.flatMap_nil, List.append_nil] at hlast
      cases hc : (String.utf8EncodeChar c).getLast? with
      | none => exact absurd (List.getLast?_eq_none_iff.1 hc) (List.ne_nil_of_mem hb)
      | some x => rwa [hc] at hlast
    have he : c = '\r' := eq_ofNat_of_mem (by decide) (List.mem_of_getLast? hsome)
    refine h.noReturn ?_
    rw [hconcat, List.getLast?_append, he]
    rfl

theorem Unbroken.decode_eq (h : Unbroken line) : decode line.toUTF8.toList = some line := by
  rw [decode, h.withoutReturn_eq, strict?_toUTF8]

/-- What stands ahead of the first line feed is a matter of the bytes alone. -/
theorem append_feed_inj {x x' z z' : List UInt8} (hx : lineFeed ∉ x) (hx' : lineFeed ∉ x')
    (h : x ++ lineFeed :: z = x' ++ lineFeed :: z') : x = x' ∧ z = z' := by
  induction x generalizing x' with
  | nil =>
    cases x' with
    | nil => exact ⟨rfl, (List.cons.inj h).2⟩
    | cons b x' => exact absurd ((List.cons.inj h).1 ▸ List.mem_cons_self) hx'
  | cons a x ih =>
    cases x' with
    | nil => exact absurd ((List.cons.inj h).1 ▸ List.mem_cons_self) hx
    | cons b x' =>
      obtain ⟨rfl, hrest⟩ := List.cons.inj h
      obtain ⟨rfl, hz⟩ := ih (fun hm => hx (List.mem_cons_of_mem _ hm))
        (fun hm => hx' (List.mem_cons_of_mem _ hm)) hrest
      exact ⟨rfl, hz⟩

theorem splitOn_of_not_mem (h : lineFeed ∉ bytes) : bytes.splitOn lineFeed = [bytes] :=
  List.splitOnP_eq_singleton fun _ hx => beq_eq_false_iff_ne.2 fun he => h (he ▸ hx)

theorem feed_of_not_mem {s : Lines} (h : lineFeed ∉ s.begun ++ bytes) :
    s.feed bytes = ([], ⟨s.begun ++ bytes⟩) := by
  simp only [feed, splitOn_of_not_mem h]
  rfl

/-- The first line is read, and then the others as from the start. -/
theorem feed_of_append {s : Lines} {x y : List UInt8} (hx : lineFeed ∉ x)
    (h : s.begun ++ bytes = x ++ lineFeed :: y) :
    s.feed bytes = (decode x :: (empty.feed y).1, (empty.feed y).2) := by
  have hsplit : (x ++ lineFeed :: y).splitOn lineFeed = x :: y.splitOn lineFeed := by
    rw [List.splitOn_append_cons_of_beq _ _ (beq_self_eq_true _), splitOn_of_not_mem hx]
    rfl
  cases hy : y.splitOn lineFeed with
  | nil => exact absurd hy (List.splitOn_ne_nil _ _)
  | cons piece pieces =>
    simp only [feed, h, hsplit, empty, List.nil_append, hy, List.dropLast_cons_of_ne_nil,
      List.cons_ne_nil, ne_eq, not_false_eq_true, List.map_cons, List.getLast?_cons_cons]

/-- Of bytes that begin a stream of lines, the whole lines are read and the rest is kept. -/
theorem feed_frames (hlines : ∀ line ∈ lines, Unbroken line) {s : Lines}
    (h : s.begun ++ bytes ++ later = lines.flatMap frame) :
    ∃ read unread, lines = read ++ unread ∧ (s.feed bytes).1 = read.map some ∧
      (s.feed bytes).2.begun ++ later = unread.flatMap frame := by
  induction lines generalizing s bytes with
  | nil =>
    obtain ⟨hnone, rfl⟩ := List.append_eq_nil_iff.1 h
    rw [feed_of_not_mem (by rw [hnone]; exact List.not_mem_nil), hnone]
    exact ⟨[], [], rfl, rfl, rfl⟩
  | cons line lines ih =>
    have hline := hlines line List.mem_cons_self
    by_cases hfeed : lineFeed ∈ s.begun ++ bytes
    · obtain ⟨x, y, hbytes, hx⟩ := List.eq_append_cons_of_mem hfeed
      rw [hbytes, List.flatMap_cons, frame, List.append_assoc, List.append_assoc,
        List.cons_append, List.singleton_append] at h
      obtain ⟨rfl, hrest⟩ := append_feed_inj hx hline.not_mem h
      obtain ⟨read, unread, rfl, hread, hkept⟩ :=
        ih (s := empty) (fun line hl => hlines line (List.mem_cons_of_mem _ hl)) hrest
      rw [feed_of_append hx hbytes, hline.decode_eq, hread]
      exact ⟨line :: read, unread, rfl, rfl, hkept⟩
    · rw [feed_of_not_mem hfeed]
      exact ⟨[], line :: lines, rfl, rfl, h⟩

/-- The same of lines that are the texts of something. -/
theorem feed_texts {α : Type} {items : List α} {text : α → String}
    (hitems : ∀ a ∈ items, Unbroken (text a)) {s : Lines} {stream : List UInt8}
    (h : s.begun ++ stream = (items.map text).flatMap frame) (n : Nat) :
    ∃ read unread, items = read ++ unread ∧
      (s.feed (stream.take n)).1 = read.map (fun a => some (text a)) ∧
      (s.feed (stream.take n)).2.begun ++ stream.drop n = (unread.map text).flatMap frame := by
  have hstream : s.begun ++ stream.take n ++ stream.drop n = (items.map text).flatMap frame := by
    rw [List.append_assoc, List.take_append_drop, h]
  have hlines : ∀ line ∈ items.map text, Unbroken line := by
    intro line hline
    obtain ⟨a, ha, rfl⟩ := List.mem_map.1 hline
    exact hitems a ha
  obtain ⟨lines, rest, hsplit, hread, hkept⟩ := feed_frames hlines hstream
  obtain ⟨read, unread, rfl, rfl, rfl⟩ := List.map_eq_append_iff.1 hsplit
  rw [List.map_map] at hread
  exact ⟨read, unread, rfl, hread, hkept⟩

theorem frames_eq_nil {α : Type} {items : List α} {text : α → String}
    (h : (items.map text).flatMap frame = []) : items = [] := by
  cases items with
  | nil => rfl
  | cons a items => simp [frame] at h

end WarmCompile.Lines
