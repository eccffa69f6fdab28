import Std.Data.TreeSet

/-!
Sets of numbers that remember the order in which their members were found. Each member is listed
once, and membership does not search the list.
-/

set_option autoImplicit false

namespace CompactFont

/-- A set of numbers in the order of their discovery. -/
structure DiscoverySet where
  order : Array Nat
  members : Std.TreeSet Nat
  mem_members_iff : ∀ i, i ∈ members ↔ i ∈ order
  nodup : order.toList.Nodup

namespace DiscoverySet

instance : Membership Nat DiscoverySet := ⟨fun used i => i ∈ used.order⟩

def empty : DiscoverySet where
  order := #[]
  members := ∅
  mem_members_iff i := by simp only [Std.TreeSet.not_mem_emptyc, Array.not_mem_empty]
  nodup := List.nodup_nil

def contains (used : DiscoverySet) (i : Nat) : Bool := used.members.contains i

theorem contains_iff (used : DiscoverySet) (i : Nat) : used.contains i = true ↔ i ∈ used := by
  rw [contains, Std.TreeSet.contains_iff_mem, used.mem_members_iff]
  rfl

instance (used : DiscoverySet) (i : Nat) : Decidable (i ∈ used) :=
  decidable_of_iff _ (used.contains_iff i)

def insert (used : DiscoverySet) (i : Nat) : DiscoverySet :=
  if present : used.contains i then used
  else
    { order := used.order.push i
      members := used.members.insert i
      mem_members_iff j := by
        simp only [Std.TreeSet.mem_insert, used.mem_members_iff, Array.mem_push,
          Nat.compare_eq_eq]
        exact ⟨fun found => found.elim (.inr ·.symm) .inl,
          fun found => found.elim .inr (.inl ·.symm)⟩
      nodup := by
        have absent : i ∉ used.order := fun found => present ((used.contains_iff i).2 found)
        rw [Array.toList_push, List.nodup_append]
        refine ⟨used.nodup, List.nodup_cons.2 ⟨List.not_mem_nil, List.nodup_nil⟩, ?_⟩
        intro member found other single same
        rw [List.mem_singleton] at single
        exact absent (single ▸ same ▸ Array.mem_toList_iff.1 found) }

def insertAll (used : DiscoverySet) (found : Array Nat) : DiscoverySet := found.foldl insert used

def size (used : DiscoverySet) : Nat := used.order.size

theorem not_mem_empty (i : Nat) : i ∉ empty := by
  intro found
  exact Array.not_mem_empty i found

theorem mem_insert (used : DiscoverySet) (i j : Nat) : j ∈ used.insert i ↔ j = i ∨ j ∈ used := by
  unfold insert
  split
  · next present =>
    exact ⟨.inr, fun found => found.elim
      (fun same => same ▸ (used.contains_iff i).1 present) id⟩
  · exact Array.mem_push.trans or_comm

end DiscoverySet
end CompactFont
