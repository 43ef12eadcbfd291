import GemStaging.Proofs.Disk.Walk
import Mathlib.Data.List.Sort

/-!
What a listing says. The names in a directory come in ascending order (`names_ascending`), so that
a listing follows from which names are there (`names_congr`).
-/

namespace GemStaging.Disk

variable {c d : Disk} {here loc : Location} {p : Path} {name : String}

theorem compare_append_singleton (dir : Location) (a b : String) :
    compare (dir ++ [a]) (dir ++ [b]) = compare a b := by
  induction dir with
  | nil => simp
  | cons first dir ih =>
    rw [List.compare_eq_compareLex] at ih ⊢
    simpa [List.compareLex_cons_cons, Std.ReflCmp.compare_self] using ih

theorem names_ascending (d : Disk) (dir : Location) : (d.names dir).Pairwise (· < ·) := by
  have hkeys : d.table.keys.Pairwise fun a b => compare a b = .lt :=
    List.pairwise_map.2 d.table.ascending
  refine List.Pairwise.filterMap _ ?_ hkeys
  intro k k' hk name hname name' hname'
  split at hname
  · rename_i hdir
    split at hname'
    · rename_i hdir'
      obtain ⟨init, rfl⟩ := List.getLast?_eq_some_iff.1 hname
      obtain ⟨init', rfl⟩ := List.getLast?_eq_some_iff.1 hname'
      simp only [List.dropLast_concat] at hdir hdir'
      subst hdir hdir'
      rw [compare_append_singleton] at hk
      exact compareOfLessAndEq_eq_lt.1 hk
    · simp at hname'
  · simp at hname

theorem find?_eq_some_iff_least {names : List String} (h : names.Pairwise (· < ·))
    {test : String → Bool} {name : String} :
    names.find? test = some name ↔
      name ∈ names ∧ test name ∧ ∀ other ∈ names, test other → name ≤ other := by
  have hfirst {name : String} (hfind : names.find? test = some name) :
      ∀ other ∈ names, test other → name ≤ other := by
    obtain ⟨-, before, after, rfl, hbefore⟩ := List.find?_eq_some_iff_append.1 hfind
    intro other hother htest
    rcases List.mem_append.1 hother with hother | hother
    · rw [Bool.not_eq_eq_eq_not.1 (hbefore other hother)] at htest
      cases htest
    · rcases List.mem_cons.1 hother with rfl | hother
      · exact String.le_refl _
      · have hlater := (List.pairwise_append.1 h).2.1
        exact String.not_lt.1 (String.lt_asymm (List.rel_of_pairwise_cons hlater hother))
  constructor
  · intro hfind
    exact ⟨List.mem_of_find?_eq_some hfind, List.find?_some hfind, hfirst hfind⟩
  · rintro ⟨hmem, htest, hleast⟩
    obtain ⟨first, hfind⟩ := Option.isSome_iff_exists.1 (List.find?_isSome.2 ⟨name, hmem, htest⟩)
    have hle := hfirst hfind name hmem htest
    have hge := hleast first (List.mem_of_find?_eq_some hfind) (List.find?_some hfind)
    rw [hfind, String.le_antisymm hle hge]

theorem mem_names_of_below {rest : Location} (h : (d.get? (loc ++ name :: rest)).isSome) :
    name ∈ d.names loc := by
  rw [mem_names_iff]
  exact isSome_upward (by simp [List.prefix_append_right_inj]) h

theorem names_congr {c d : Disk} {dir dir' : Location}
    (h : ∀ name, (c.get? (dir ++ [name])).isSome = (d.get? (dir' ++ [name])).isSome) :
    c.names dir = d.names dir' :=
  (names_ascending c dir).eq_of_mem_iff (names_ascending d dir') fun name => by
    rw [mem_names_iff, mem_names_iff, h]

/-- The names in the directory that a path leads to; none where it leads to no directory. -/
def namesAt (d : Disk) (here : Location) (p : Path) : List String :=
  match d.locate here p with
  | .ok loc => d.names loc
  | .error _ => []

theorem namesAt_ascending (d : Disk) (here : Location) (p : Path) :
    (d.namesAt here p).Pairwise (· < ·) := by
  rw [namesAt]
  split
  · exact names_ascending d _
  · exact .nil

theorem mem_namesAt_iff {name : String} :
    name ∈ d.namesAt here p ↔
      ∃ loc, d.resolve here .look p = .ok (.entry loc) ∧ (d.get? (loc ++ [name])).isSome := by
  rw [namesAt]
  split
  · rename_i loc h
    rw [locate_eq_ok_iff] at h
    simp [mem_names_iff, h]
  · rename_i e h
    constructor
    · simp
    · rintro ⟨loc, hl, -⟩
      rw [locate_eq_ok_iff.2 hl] at h
      simp at h

end GemStaging.Disk
