/-
Gimbal/Table.lean

Decomposition tables: names with their decompositions, kept in the order of the
names.

`insert` puts a name where it belongs and replaces an entry of the same name, so
a table has each name once; `find?` of what was inserted is what was inserted,
and other names are not touched.
-/
import Gimbal.Step
import Gimbal.Occurrence

namespace Gimbal

/-- Names and decompositions, in the order of the names. -/
structure Table (R : Type) where
  entries : List (String × Decomposition R)
  sorted : entries.Pairwise fun a b => a.1 < b.1

/-- Puts a name among others in order, in the place of an equal one if there is
one. -/
def insertEntry {α : Type} (name : String) (v : α) : List (String × α) →
      List (String × α)
  | [] => [(name, v)]
  | (other, w) :: rest =>
    if name < other then (name, v) :: (other, w) :: rest
    else if name = other then (name, v) :: rest
    else (other, w) :: insertEntry name v rest

/-! ### Laws of insertion -/

section Insertion

variable {α : Type}

theorem lookup_cons_self (name : String) (v : α) (entries : List (String × α)) :
    ((name, v) :: entries).lookup name = some v := by
  simp

theorem lookup_cons_of_ne {name other : String} (h : other ≠ name) (v : α)
    (entries : List (String × α)) :
    ((name, v) :: entries).lookup other = entries.lookup other := by
  have : (other == name) = false := by simpa using h
  simp [List.lookup_cons, this]

theorem lookup_insertEntry_self (name : String) (v : α)
    (entries : List (String × α)) :
    (insertEntry name v entries).lookup name = some v := by
  induction entries with
  | nil => exact lookup_cons_self name v []
  | cons p rest ih =>
    obtain ⟨other, w⟩ := p
    unfold insertEntry
    split
    · exact lookup_cons_self name v _
    · split
      · exact lookup_cons_self name v _
      · next h => rw [lookup_cons_of_ne h, ih]

theorem lookup_insertEntry_of_ne {name other : String}
    (h : other ≠ name) (v : α) (entries : List (String × α)) :
    (insertEntry name v entries).lookup other = entries.lookup other := by
  induction entries with
  | nil => exact lookup_cons_of_ne h v []
  | cons p rest ih =>
    obtain ⟨third, w⟩ := p
    unfold insertEntry
    split
    · exact lookup_cons_of_ne h v _
    · split
      · next h' => subst h'; rw [lookup_cons_of_ne h, lookup_cons_of_ne h]
      · simp only [List.lookup_cons, ih]

theorem mem_insertEntry {name : String} {v : α} {entries : List (String × α)}
    {p : String × α} (h : p ∈ insertEntry name v entries) :
    p = (name, v) ∨ p ∈ entries := by
  induction entries with
  | nil => exact Or.inl (by simpa [insertEntry] using h)
  | cons q rest ih =>
    obtain ⟨other, w⟩ := q
    unfold insertEntry at h
    split at h
    · simpa using h
    · split at h
      · simp only [List.mem_cons] at h ⊢
        rcases h with h | h
        · exact Or.inl h
        · exact Or.inr (Or.inr h)
      · simp only [List.mem_cons] at h ⊢
        rcases h with h | h
        · exact Or.inr (Or.inl h)
        · rcases ih h with h | h
          · exact Or.inl h
          · exact Or.inr (Or.inr h)

/-- Insertion keeps the order of the names. -/
theorem pairwise_insertEntry (name : String) (v : α)
    {entries : List (String × α)} (h : entries.Pairwise fun a b => a.1 < b.1) :
    (insertEntry name v entries).Pairwise fun a b => a.1 < b.1 := by
  induction entries with
  | nil => simp [insertEntry]
  | cons q rest ih =>
    obtain ⟨other, w⟩ := q
    obtain ⟨hq, hrest⟩ := List.pairwise_cons.mp h
    unfold insertEntry
    split
    · next hlt =>
      refine List.pairwise_cons.mpr ⟨fun p hp => ?_, h⟩
      rcases List.mem_cons.mp hp with rfl | hp
      · exact hlt
      · exact String.lt_trans hlt (hq p hp)
    · split
      · next heq =>
        subst heq
        exact List.pairwise_cons.mpr ⟨hq, hrest⟩
      · next hlt hne =>
        have hother : other < name := by
          refine String.not_le.mp fun hle => hne ?_
          exact String.le_antisymm hle (String.not_lt.mp hlt)
        refine List.pairwise_cons.mpr ⟨fun p hp => ?_, ih hrest⟩
        rcases mem_insertEntry hp with rfl | hp
        · exact hother
        · exact hq p hp

end Insertion

/-! ### Tables -/

namespace Table

variable {R : Type}

/-- The table without entries. -/
def empty : Table R := ⟨[], .nil⟩

/-- The table with a decomposition for a name. -/
def insert (t : Table R) (name : String) (d : Decomposition R) : Table R :=
  ⟨insertEntry name d t.entries, pairwise_insertEntry name d t.sorted⟩

/-- The decomposition of a name. -/
def find? (t : Table R) (name : String) : Option (Decomposition R) :=
  t.entries.lookup name

/-- Whether a name has a decomposition. -/
def contains (t : Table R) (name : String) : Bool := (t.find? name).isSome

/-- The number of names. -/
def size (t : Table R) : Nat := t.entries.length

/-- Whether there are no names. -/
def isEmpty (t : Table R) : Bool := t.entries.isEmpty

/-- The table with some more names, later ones replacing earlier ones. -/
def insertAll (t : Table R) (entries : List (String × Decomposition R)) :
    Table R :=
  entries.foldl (fun t p => t.insert p.1 p.2) t

instance [BEq R] : BEq (Table R) := ⟨fun a b => a.entries == b.entries⟩

@[simp] theorem find?_insert_self (t : Table R) (name : String)
    (d : Decomposition R) :
    (t.insert name d).find? name = some d :=
  lookup_insertEntry_self name d t.entries

theorem find?_insert_of_ne (t : Table R) {name other : String}
    (h : other ≠ name) (d : Decomposition R) :
    (t.insert name d).find? other = t.find? other :=
  lookup_insertEntry_of_ne h d t.entries

/-! ### The usual table -/

variable [Scalar R]

/-- A controlled flip: the gate that turns a phase flip into a bit flip, on both
sides of a phase flip. -/
def controlledFlip : Decomposition R :=
  [.rz 1.57, .rx 1.57, .rz 1.57, .cz, .rz 1.57, .rx 1.57, .rz 1.57]

/-- The table that knows the controlled flip only. -/
def withDefaults : Table R := empty.insert FixedGate.cnot.name controlledFlip

end Table

end Gimbal
