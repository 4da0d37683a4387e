/-!
Finite maps from texts to values. The entries stand in key order, each key once, so two tables with
the same entries are the same table.
-/

namespace WarmCompile

structure Table (β : Type) where
  entries : List (String × β)
  sorted : entries.Pairwise (·.1 < ·.1)

namespace Table

variable {β : Type}

def empty : Table β := ⟨[], .nil⟩

instance : Inhabited (Table β) := ⟨empty⟩

instance [DecidableEq β] : DecidableEq (Table β) := fun a b =>
  if h : a.entries = b.entries then
    isTrue (by cases a; cases b; simp_all)
  else
    isFalse fun e => h (congrArg entries e)

/-- Puts an entry into its place; an entry already there under the key gives way. -/
def insertEntry (k : String) (v : β) : List (String × β) → List (String × β)
  | [] => [(k, v)]
  | (k', v') :: r =>
    if k < k' then (k, v) :: (k', v') :: r
    else if k' < k then (k', v') :: insertEntry k v r
    else (k, v) :: r

theorem key_of_mem_insertEntry {k : String} {v : β} {l : List (String × β)} {e : String × β}
    (h : e ∈ insertEntry k v l) : e = (k, v) ∨ e ∈ l := by
  induction l with
  | nil => simpa [insertEntry] using h
  | cons x r ih =>
    simp only [insertEntry] at h
    split at h
    · simpa using h
    · split at h
      · rcases List.mem_cons.1 h with h | h
        · simp [h]
        · rcases ih h with h | h <;> simp [h]
      · rcases List.mem_cons.1 h with h | h <;> simp [h]

theorem pairwise_insertEntry {k : String} {v : β} {l : List (String × β)}
    (h : l.Pairwise (·.1 < ·.1)) : (insertEntry k v l).Pairwise (·.1 < ·.1) := by
  induction l with
  | nil => simp [insertEntry]
  | cons x r ih =>
    obtain ⟨hx, hr⟩ := List.pairwise_cons.1 h
    simp only [insertEntry]
    split
    · rename_i hk
      refine List.pairwise_cons.2 ⟨fun e he => ?_, h⟩
      rcases List.mem_cons.1 he with rfl | he
      · exact hk
      · exact String.lt_trans hk (hx e he)
    · rename_i hk
      split
      · rename_i hk'
        refine List.pairwise_cons.2 ⟨fun e he => ?_, ih hr⟩
        rcases key_of_mem_insertEntry he with rfl | he
        · exact hk'
        · exact hx e he
      · rename_i hk'
        have e : x.1 = k := String.le_antisymm (String.not_lt.1 hk) (String.not_lt.1 hk')
        exact List.pairwise_cons.2 ⟨fun y hy => e ▸ hx y hy, hr⟩

def insert (t : Table β) (k : String) (v : β) : Table β :=
  ⟨insertEntry k v t.entries, pairwise_insertEntry t.sorted⟩

def find? (t : Table β) (k : String) : Option β :=
  t.entries.lookup k

def contains (t : Table β) (k : String) : Bool :=
  (t.find? k).isSome

def keys (t : Table β) : List String :=
  t.entries.map (·.1)

def size (t : Table β) : Nat :=
  t.entries.length

/-- Later entries win. -/
def ofList (l : List (String × β)) : Table β :=
  l.foldl (fun t e => t.insert e.1 e.2) empty

/-- The entries of `u` laid over those of `t`. -/
def overlay (t u : Table β) : Table β :=
  u.entries.foldl (fun t e => t.insert e.1 e.2) t

@[simp] theorem find?_empty (k : String) : (empty : Table β).find? k = none := rfl

theorem lookup_cons (e : String × β) (l : List (String × β)) (a : String) :
    (e :: l).lookup a = if a = e.1 then some e.2 else l.lookup a := by
  obtain ⟨k, v⟩ := e
  rw [List.lookup_cons]
  by_cases h : a = k
  · simp [h]
  · rw [beq_eq_false_iff_ne.2 h, if_neg h]

theorem lookup_insertEntry (k : String) (v : β) (l : List (String × β)) (a : String) :
    (insertEntry k v l).lookup a = if a = k then some v else l.lookup a := by
  induction l with
  | nil => simp [insertEntry, lookup_cons]
  | cons x r ih =>
    simp only [insertEntry]
    split
    · rw [lookup_cons]
    · rename_i h1
      split
      · rename_i h2
        have hne : x.1 ≠ k := fun e => String.lt_irrefl _ (e ▸ h2)
        rw [lookup_cons, lookup_cons, ih]
        by_cases h : a = x.1
        · rw [if_pos h, if_neg (h ▸ hne), if_pos h]
        · rw [if_neg h, if_neg h]
      · rename_i h2
        have e : x.1 = k := String.le_antisymm (String.not_lt.1 h1) (String.not_lt.1 h2)
        rw [lookup_cons, lookup_cons, e]
        by_cases h : a = k <;> simp [h]

@[simp] theorem find?_insert (t : Table β) (k : String) (v : β) (a : String) :
    (t.insert k v).find? a = if a = k then some v else t.find? a :=
  lookup_insertEntry k v t.entries a

end Table

end WarmCompile
