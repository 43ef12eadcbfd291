import GemStaging.Proofs.Disk.Listing
import Mathlib.Algebra.BigOperators.Group.Finset.Basic
import Mathlib.Algebra.GroupWithZero.Nat

/-!
How much stands below a place. The files at or below a directory are those below the names that are
listed there, each counted once (`Disk.card_filesBelow`).
-/

namespace GemStaging.Disk

variable {c d : Disk} {loc k : Location} {name : String}

def entriesBelow (d : Disk) (loc : Location) : Finset Location :=
  d.table.keys.toFinset.filter (loc <+: ·)

def filesBelow (d : Disk) (loc : Location) : Finset Location :=
  (d.entriesBelow loc).filter fun k => (d.file? k).isSome

theorem mem_entriesBelow : k ∈ d.entriesBelow loc ↔ loc <+: k ∧ (d.get? k).isSome := by
  rw [entriesBelow, Finset.mem_filter, List.mem_toFinset, and_comm]
  refine and_congr_right fun _ => ?_
  simp only [Table.keys, List.mem_map, Prod.exists, exists_and_right, exists_eq_right, get?,
    Table.mem_entries_iff, Option.isSome_iff_exists]

theorem isSome_of_file? (h : (d.file? k).isSome) : (d.get? k).isSome := by
  obtain ⟨content, mode, hfile⟩ := isSome_file?_iff.1 h
  rw [hfile]
  rfl

theorem mem_filesBelow : k ∈ d.filesBelow loc ↔ loc <+: k ∧ (d.file? k).isSome := by
  rw [filesBelow, Finset.mem_filter, mem_entriesBelow]
  exact ⟨fun h => ⟨h.1.1, h.2⟩, fun h => ⟨⟨h.1, isSome_of_file? h.2⟩, h.2⟩⟩

theorem filesBelow_congr (h : ∀ rest, c.file? (loc ++ rest) = d.file? (loc ++ rest)) :
    c.filesBelow loc = d.filesBelow loc := by
  ext k
  rw [mem_filesBelow, mem_filesBelow]
  refine and_congr_right ?_
  rintro ⟨rest, rfl⟩
  rw [h rest]

theorem filesBelow_of_file {content : Bytes} {mode : Mode}
    (h : d.get? loc = some (.file content mode)) : d.filesBelow loc = {loc} := by
  ext k
  rw [mem_filesBelow, Finset.mem_singleton]
  constructor
  · rintro ⟨⟨rest, rfl⟩, hfile⟩
    by_contra hne
    have hrest : rest ≠ [] := by
      rintro rfl
      exact hne (List.append_nil loc)
    have hdir := get?_of_below hrest (isSome_of_file? hfile)
    rw [h] at hdir
    cases hdir
  · rintro rfl
    exact ⟨List.prefix_refl k, by simp [file?, h]⟩

theorem filesBelow_eq_biUnion (h : d.get? loc = some .directory) :
    d.filesBelow loc = (d.names loc).toFinset.biUnion fun name => d.filesBelow (loc ++ [name]) := by
  ext k
  simp only [Finset.mem_biUnion, List.mem_toFinset, mem_filesBelow, mem_names_iff]
  constructor
  · rintro ⟨⟨rest, rfl⟩, hfile⟩
    cases rest with
    | nil => simp [file?, h] at hfile
    | cons name rest =>
      have hlisted := (d.mem_names_iff loc name).1 (mem_names_of_below (isSome_of_file? hfile))
      exact ⟨name, hlisted, by simp [List.prefix_append_right_inj], hfile⟩
  · rintro ⟨name, -, hbelow, hfile⟩
    exact ⟨(List.prefix_append _ _).trans hbelow, hfile⟩

theorem disjoint_filesBelow {name name' : String} (h : name ≠ name') :
    Disjoint (d.filesBelow (loc ++ [name])) (d.filesBelow (loc ++ [name'])) := by
  rw [Finset.disjoint_left]
  intro k hk hk'
  obtain ⟨hbelow, -⟩ := mem_filesBelow.1 hk
  obtain ⟨hbelow', -⟩ := mem_filesBelow.1 hk'
  have heq := (List.prefix_of_prefix_length_le hbelow hbelow' (by simp)).eq_of_length (by simp)
  exact h (by simpa using heq)

theorem names_nodup (d : Disk) (loc : Location) : (d.names loc).Nodup := by
  refine (names_ascending d loc).imp ?_
  rintro name _ hlt rfl
  exact String.lt_irrefl name hlt

theorem card_filesBelow (h : d.get? loc = some .directory) :
    (d.filesBelow loc).card =
      ((d.names loc).map fun name => (d.filesBelow (loc ++ [name])).card).sum := by
  rw [filesBelow_eq_biUnion h, Finset.card_biUnion fun _ _ _ _ hne => disjoint_filesBelow hne,
    List.sum_toFinset _ (names_nodup d loc)]

end GemStaging.Disk
