import GemStaging.Path
import GemStaging.Table
import GemStaging.Text.Utf8

/-!
Disks. A disk gives an entry to each location that is in use; a location is the list of names from
the root down. The root is a directory and everything else stands in one, and this is part of the
type: an operation that would break it does nothing. Two disks with the same entries are equal
(`Disk.ext_get?`).

An entry is a file, a directory or a link. Of a file's mode there is what the program can meet as
the user who owns everything: that the file may be started, that it may be written, and that it can
be read to its end. The other bits of a mode, owners and times are left out, and so are directories
that refuse their owner, hard links, devices and pipes. A name is text; a name of other bytes has no
place on a disk, and only the reading of names off their bytes knows of it (`Files.readName`).
-/

namespace GemStaging

abbrev Location := List String

/-- What may be done with a file. One that is not sound gives its content and then an error of the
device in place of its end. -/
structure Mode where
  executable : Bool
  writable : Bool
  sound : Bool
deriving DecidableEq

namespace Mode

/-- The mode of a file that is made to be read and written. -/
def data : Mode := ⟨false, true, true⟩

def program : Mode := ⟨true, true, true⟩

/-- The mode of a file whose content was written over: its end can be read again. -/
def mended (mode : Mode) : Mode := { mode with sound := true }

@[simp] theorem executable_mended (mode : Mode) : mode.mended.executable = mode.executable := rfl

@[simp] theorem writable_mended (mode : Mode) : mode.mended.writable = mode.writable := rfl

@[simp] theorem sound_mended (mode : Mode) : mode.mended.sound = true := rfl

@[simp] theorem mended_mended (mode : Mode) : mode.mended.mended = mode.mended := rfl

theorem mended_of_sound {mode : Mode} (h : mode.sound) : mode.mended = mode := by
  cases mode; simp_all [mended]

instance : Coe Mode Bool := ⟨executable⟩

end Mode

/-- What stands at a place. A link holds the path that it was given. -/
inductive Entry where
  | file (content : Bytes) (mode : Mode)
  | directory
  | link (target : Path)
deriving DecidableEq

structure Disk where
  table : Table Location Entry
  root : table.get? [] = some .directory
  housed : ∀ dir name, (table.get? (dir ++ [name])).isSome → table.get? dir = some .directory

namespace Disk

def get? (d : Disk) (loc : Location) : Option Entry := d.table.get? loc

theorem ext_get? {c d : Disk} (h : ∀ loc, c.get? loc = d.get? loc) : c = d := by
  have : c.table = d.table := Table.ext_get? h
  cases c; cases d; simp_all

@[simp] theorem get?_root (d : Disk) : d.get? [] = some .directory := d.root

theorem get?_parent (d : Disk) {dir : Location} {name : String}
    (h : (d.get? (dir ++ [name])).isSome) : d.get? dir = some .directory :=
  d.housed dir name h

def onlyRoot : Disk where
  table := Table.empty.insert [] .directory
  root := by simp
  housed dir name h := by
    simp [Table.get?_insert_of_ne (k := []) (j := dir ++ [name])] at h

/-- An entry may be put under a name in a directory: nothing may take the place of a directory but
itself. -/
def admits (d : Disk) (dir : Location) (name : String) (e : Entry) : Prop :=
  d.get? dir = some .directory ∧ (d.get? (dir ++ [name]) = some .directory → e = .directory)

instance (d : Disk) (dir : Location) (name : String) (e : Entry) :
    Decidable (d.admits dir name e) :=
  inferInstanceAs (Decidable (_ ∧ _))

/-- The disk with an entry under a name in a directory, where it may be put there. -/
def put (d : Disk) (dir : Location) (name : String) (e : Entry) : Disk :=
  if h : d.admits dir name e then
    { table := d.table.insert (dir ++ [name]) e
      root := by rw [Table.get?_insert_of_ne _ _ (by simp)]; exact d.root
      housed := by
        intro dir' name' h'
        have old : d.table.get? dir' = some .directory := by
          by_cases hk : dir' ++ [name'] = dir ++ [name]
          · obtain ⟨rfl, -⟩ := by simpa using hk
            exact h.1
          · rw [Table.get?_insert_of_ne _ _ hk] at h'
            exact d.housed _ _ h'
        by_cases hd : dir' = dir ++ [name]
        · subst hd
          rw [h.2 old]
          simp
        · rw [Table.get?_insert_of_ne _ _ hd]
          exact old }
  else d

theorem get?_put {d : Disk} {dir : Location} {name : String} {e : Entry}
    (h : d.admits dir name e) (loc : Location) :
    (d.put dir name e).get? loc = if loc = dir ++ [name] then some e else d.get? loc := by
  simp only [put, h, dif_pos, get?]
  split
  · rename_i hl; subst hl; simp
  · rename_i hl; exact Table.get?_insert_of_ne _ _ hl

/-- The disk on which nothing was put yet. What the system shows by itself is the memory of the
running program: a file that is there, and that cannot be read from its start. -/
def empty : Disk :=
  ((onlyRoot.put [] "proc" .directory).put ["proc"] "self" .directory).put ["proc", "self"] "mem"
    (.file [] ⟨false, true, false⟩)

/-- The disk without a location and all that is below it. The root stays. -/
def remove (d : Disk) (loc : Location) : Disk :=
  if hl : loc = [] then d
  else
    { table := d.table.filter fun k _ => !loc.isPrefixOf k
      root := by
        rw [Table.get?_filter]
        have : loc.isPrefixOf [] = false := by
          cases loc with
          | nil => exact absurd rfl hl
          | cons a as => rfl
        simp [d.root, Option.filter, this]
      housed := by
        intro dir name h
        rw [Table.get?_filter] at h ⊢
        cases hx : d.table.get? (dir ++ [name]) with
        | none => simp [hx] at h
        | some x =>
          have hdir := d.housed dir name (by simp [hx])
          have hkeep : loc.isPrefixOf (dir ++ [name]) = false := by
            simpa [hx, Option.filter] using h
          have : loc.isPrefixOf dir = false := by
            cases hp : loc.isPrefixOf dir with
            | false => rfl
            | true =>
              have := (List.isPrefixOf_iff_prefix.1 hp).trans (List.prefix_append dir [name])
              rw [List.isPrefixOf_iff_prefix.2 this] at hkeep
              exact absurd hkeep (by simp)
          simp [hdir, Option.filter, this] }

theorem get?_remove {d : Disk} {loc : Location} (hl : loc ≠ []) (k : Location) :
    (d.remove loc).get? k = if loc.isPrefixOf k then none else d.get? k := by
  simp only [remove, hl, dif_neg, not_false_eq_true, get?, Table.get?_filter]
  cases d.table.get? k with
  | none => simp
  | some x => cases h : loc.isPrefixOf k <;> simp [Option.filter]

def names (d : Disk) (dir : Location) : List String :=
  d.table.keys.filterMap fun k =>
    if k.dropLast = dir then k.getLast? else none

/-- A name is listed exactly where there is an entry under it. -/
theorem mem_names_iff (d : Disk) (dir : Location) (name : String) :
    name ∈ d.names dir ↔ (d.get? (dir ++ [name])).isSome := by
  simp only [names, Table.keys, List.filterMap_map, List.mem_filterMap, Function.comp]
  constructor
  · rintro ⟨⟨k, x⟩, hm, h⟩
    split at h
    · rename_i hd
      obtain ⟨ys, hk⟩ := List.getLast?_eq_some_iff.1 h
      simp only at hk hd
      subst hk
      simp only [List.dropLast_concat] at hd
      subst hd
      simp [get?, (Table.mem_entries_iff _).1 hm]
    · simp at h
  · intro h
    obtain ⟨x, hx⟩ := Option.isSome_iff_exists.1 h
    exact ⟨(dir ++ [name], x), (Table.mem_entries_iff _).2 hx, by simp⟩

/-- The content and the mode of the file at a location. -/
def file? (d : Disk) (loc : Location) : Option (Bytes × Mode) :=
  match d.get? loc with
  | some (.file content mode) => some (content, mode)
  | _ => none

def isDirectory (d : Disk) (loc : Location) : Bool := d.get? loc == some .directory

end Disk

end GemStaging
