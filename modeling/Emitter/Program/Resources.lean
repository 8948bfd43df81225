/-!
# Named binary resources

The resources of a program by name, kept in ascending order of names with no name twice.
-/

namespace Emitter.Program

/-- Two entries in ascending order of their names. -/
def precedes (a b : String × List UInt8) : Prop := a.1 < b.1

/-- Puts the bytes at their name's place, over those the name had before. -/
def insertEntry (name : String) (bytes : List UInt8) :
    List (String × List UInt8) → List (String × List UInt8)
  | [] => [(name, bytes)]
  | entry :: rest =>
    if name < entry.1 then (name, bytes) :: entry :: rest
    else if entry.1 < name then entry :: insertEntry name bytes rest
    else (name, bytes) :: rest

theorem mem_insertEntry {name : String} {bytes : List UInt8} {entries : List (String × List UInt8)}
    {e : String × List UInt8} (h : e ∈ insertEntry name bytes entries) :
    e = (name, bytes) ∨ e ∈ entries := by
  induction entries with
  | nil => simpa [insertEntry] using h
  | cons entry rest ih =>
    unfold insertEntry at h
    split at h
    · simpa using h
    · split at h
      · rcases List.mem_cons.1 h with rfl | h
        · exact .inr List.mem_cons_self
        · exact (ih h).imp_right (List.mem_cons_of_mem _)
      · rcases List.mem_cons.1 h with rfl | h
        · exact .inl rfl
        · exact .inr (List.mem_cons_of_mem _ h)

theorem pairwise_insertEntry {name : String} {bytes : List UInt8}
    {entries : List (String × List UInt8)} (h : entries.Pairwise precedes) :
    (insertEntry name bytes entries).Pairwise precedes := by
  induction entries with
  | nil => simp [insertEntry]
  | cons entry rest ih =>
    obtain ⟨first, tail⟩ := List.pairwise_cons.1 h
    unfold insertEntry
    split
    · rename_i below
      refine List.pairwise_cons.2 ⟨fun e member => ?_, h⟩
      rcases List.mem_cons.1 member with rfl | member
      · exact below
      · exact String.lt_trans below (first e member)
    · split
      · rename_i above
        refine List.pairwise_cons.2 ⟨fun e member => ?_, ih tail⟩
        rcases mem_insertEntry member with rfl | member
        · exact above
        · exact first e member
      · rename_i notBelow notAbove
        have same : name = entry.1 :=
          String.le_antisymm (String.not_lt.1 notAbove) (String.not_lt.1 notBelow)
        refine List.pairwise_cons.2 ⟨fun e member => ?_, tail⟩
        subst same
        exact first e member

/-- Resources by name, in ascending order of names. -/
structure Resources where
  entries : List (String × List UInt8)
  ascending : entries.Pairwise precedes

namespace Resources

def empty : Resources := ⟨[], .nil⟩

def insert (resources : Resources) (name : String) (bytes : List UInt8) : Resources :=
  ⟨insertEntry name bytes resources.entries, pairwise_insertEntry resources.ascending⟩

def contains (resources : Resources) (name : String) : Bool :=
  resources.entries.any (·.1 = name)

end Resources

end Emitter.Program
