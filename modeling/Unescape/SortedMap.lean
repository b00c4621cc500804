set_option autoImplicit false

/-! # Maps listed in the order of their keys

A map is the list of its entries in ascending order of the keys, and carries the proof that they
ascend; no key has two entries then. The order makes the list canonical: two maps built by different
insertions agree as values as soon as they agree as maps, and a listing of the entries needs no
sorting.

Lookups after an update are described by `get?_insert` and `get?_erase`; neither needs the order. -/

namespace Unescape

/-- Keys that can stand in an ascending list: of two keys that differ one comes first. -/
class KeyOrder (α : Type) [LT α] : Prop where
  lt_trans {a b c : α} : a < b → b < c → a < c
  eq_of_not_lt {a b : α} : ¬ a < b → ¬ b < a → a = b

instance : KeyOrder Char where
  lt_trans := Char.lt_trans
  eq_of_not_lt hab hba := Char.le_antisymm (Char.not_lt.1 hba) (Char.not_lt.1 hab)

instance : KeyOrder String where
  lt_trans := String.lt_trans
  eq_of_not_lt hab hba := String.le_antisymm (String.not_lt.1 hba) (String.not_lt.1 hab)

/-- The entries of a map, ascending by key. -/
structure SortedMap (α β : Type) [LT α] where
  entries : List (α × β)
  ascending : entries.Pairwise fun e f => e.1 < f.1
deriving DecidableEq, Repr

namespace SortedMap

variable {α β : Type} [DecidableEq α]

/-! ## Lookup -/

/-- The value of the first entry with a given key. -/
def find? (k : α) : List (α × β) → Option β
  | [] => none
  | (j, v) :: r => if j = k then some v else find? k r

theorem isSome_find?_iff (k : α) (es : List (α × β)) :
    (find? k es).isSome = true ↔ k ∈ es.map Prod.fst := by
  induction es with
  | nil => simp [find?]
  | cons e es ih =>
    by_cases he : e.1 = k
    · simp [find?, he]
    · simp [find?, he, ih, Ne.symm he]

variable [LT α]

/-- The value of a key. -/
def get? (m : SortedMap α β) (k : α) : Option β := find? k m.entries

/-- The map without entries. -/
def empty : SortedMap α β := ⟨[], .nil⟩

instance : Inhabited (SortedMap α β) := ⟨empty⟩

@[simp] theorem get?_empty (k : α) : (empty : SortedMap α β).get? k = none := rfl

/-! ## Erasure -/

/-- The entries that satisfy a condition. -/
def filter (m : SortedMap α β) (p : α × β → Bool) : SortedMap α β :=
  ⟨m.entries.filter p, m.ascending.filter p⟩

/-- The map without a key. -/
def erase (m : SortedMap α β) (k : α) : SortedMap α β := m.filter fun e => e.1 ≠ k

theorem get?_erase (m : SortedMap α β) (k j : α) :
    (m.erase k).get? j = if j = k then none else m.get? j := by
  simp only [get?, erase, filter]
  induction m.entries with
  | nil => simp [find?]
  | cons e r ih =>
    by_cases he : e.1 = k <;> by_cases hj : e.1 = j <;> grind [find?]

/-! ## Insertion -/

variable [DecidableLT α]

/-- Put an entry at its place, over one with the same key. -/
def insertEntry (k : α) (v : β) : List (α × β) → List (α × β)
  | [] => [(k, v)]
  | (j, w) :: r =>
    if j = k then (k, v) :: r
    else if k < j then (k, v) :: (j, w) :: r
    else (j, w) :: insertEntry k v r

theorem find?_insertEntry (k : α) (v : β) (es : List (α × β)) (j : α) :
    find? j (insertEntry k v es) = if j = k then some v else find? j es := by
  induction es with
  | nil => grind [find?, insertEntry]
  | cons e r ih => grind [find?, insertEntry]

theorem mem_insertEntry {k : α} {v : β} {es : List (α × β)} {e : α × β}
    (h : e ∈ insertEntry k v es) : e = (k, v) ∨ e ∈ es := by
  induction es with
  | nil => exact .inl (List.mem_singleton.1 h)
  | cons f r ih =>
    simp only [insertEntry] at h
    split at h
    · exact (List.mem_cons.1 h).imp_right (List.mem_cons_of_mem f)
    · split at h
      · exact List.mem_cons.1 h
      · rcases List.mem_cons.1 h with rfl | h
        · exact .inr List.mem_cons_self
        · exact (ih h).imp_right (List.mem_cons_of_mem f)

variable [KeyOrder α]

theorem pairwise_insertEntry {es : List (α × β)} (h : es.Pairwise fun e f => e.1 < f.1) (k : α)
    (v : β) : (insertEntry k v es).Pairwise fun e f => e.1 < f.1 := by
  induction es with
  | nil => exact List.pairwise_singleton ..
  | cons f r ih =>
    obtain ⟨hf, hr⟩ := List.pairwise_cons.1 h
    simp only [insertEntry]
    split
    · rename_i hk
      exact List.pairwise_cons.2 ⟨hk ▸ hf, hr⟩
    · rename_i hne
      split
      · rename_i hlt
        refine List.pairwise_cons.2 ⟨?_, h⟩
        intro e he
        rcases List.mem_cons.1 he with rfl | he
        · exact hlt
        · exact KeyOrder.lt_trans hlt (hf e he)
      · rename_i hle
        -- The key of the first entry is neither the new one nor behind it.
        refine List.pairwise_cons.2 ⟨?_, ih hr⟩
        intro e he
        rcases mem_insertEntry he with rfl | he
        · exact Decidable.byContradiction fun hge => hne (KeyOrder.eq_of_not_lt hge hle)
        · exact hf e he

/-- The map with `k` sent to `v`, whatever `k` was sent to before. -/
def insert (m : SortedMap α β) (k : α) (v : β) : SortedMap α β :=
  ⟨insertEntry k v m.entries, pairwise_insertEntry m.ascending k v⟩

theorem get?_insert (m : SortedMap α β) (k : α) (v : β) (j : α) :
    (m.insert k v).get? j = if j = k then some v else m.get? j :=
  find?_insertEntry k v m.entries j

/-- All entries of a list, a later one over an earlier one with the same key. -/
def insertMany (m : SortedMap α β) (es : List (α × β)) : SortedMap α β :=
  es.foldl (fun m e => m.insert e.1 e.2) m

/-- The map of a list of entries; of two entries with one key the later wins. -/
def ofList (es : List (α × β)) : SortedMap α β := empty.insertMany es

end SortedMap

end Unescape
