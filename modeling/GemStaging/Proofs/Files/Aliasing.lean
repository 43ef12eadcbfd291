import GemStaging.Proofs.Disk.Plain
import GemStaging.Proofs.Files.Copy

/-!
Copying a file when two paths lead to it. A copy reads its source after its target was opened, and
opening empties a file that is there. Where the two paths lead to different places the source stays
as it is and the target comes to equal it; where they lead to one place, by the same spelling,
another one or through a link, that file is empty afterwards (`Files.Copied.kept_or_emptied`).
-/

namespace GemStaging

open Effect Disk

variable {here loc : Location} {source target : Path} {content : Bytes} {mode : Mode} {c d : Disk}

namespace Disk

theorem Grows.locate_file (hg : c.Grows d) (hfile : c.get? loc = some (.file content mode))
    (h : c.locate here source = .ok loc) : d.locate here source = .ok loc := by
  rw [locate_eq_ok_iff] at h ⊢
  exact hg.arrives (.inl rfl) rfl h (.inr ⟨hg.file hfile, .inr ⟨rfl, rfl⟩⟩)

theorem at?_of_locate {e : Entry} (h : d.locate here source = .ok loc) (he : d.get? loc = some e) :
    d.at? here source = some e :=
  at?_eq_some_iff.2 ⟨loc, locate_eq_ok_iff.1 h, he⟩

theorem exists_locate_of_at? {e : Entry} (h : d.at? here source = some e) :
    ∃ loc, d.locate here source = .ok loc ∧ d.get? loc = some e := by
  obtain ⟨loc, hl, he⟩ := at?_eq_some_iff.1 h
  exact ⟨loc, locate_eq_ok_iff.2 hl, he⟩

end Disk

namespace Access

/-- An entry has come to stand at the place that a path leads to. Nothing was there before unless
the path led to a file, and nothing else has changed. -/
structure Lands (here : Location) (p : Path) (e : Entry) (c d : Disk) (place : Location) :
    Prop where
  leads : d.locate here p = .ok place
  fresh : c.get? place = none ∨ c.isFileAt here p
  stands : d.get? place = some e
  grows : c.Grows d
  others : ∀ loc, loc ≠ place → d.get? loc = c.get? loc

variable {dir : Location} {name : String}

theorem openFile_lands {p : Path} {given : Mode} (hhere : c.get? here = some .directory)
    (h : openFile p given here c = (.ok (dir, name, mode), d)) :
    Lands here p (.file [] mode) c d (dir ++ [name]) := by
  have hg : c.Grows d := (openFile_grows p given).of_eq h
  obtain ⟨⟨t, ht, hloc⟩, rfl, hbefore⟩ := openFile_eq_ok h
  obtain ⟨hopened, -, harrives⟩ := openFile_arrives hhere h
  refine ⟨?_, ?_, hopened, hg, fun loc hne => get?_put_of_ne hne⟩
  · exact locate_eq_ok_iff.2 (harrives _ (.refl _) .look (.inl rfl))
  · rcases hbefore with ⟨hnone, -⟩ | ⟨old, oldMode, hold, -⟩
    · exact .inl hnone
    · have hl := (Grows.refl c).arrives (.inl rfl) rfl ht
        (.inr ⟨⟨old, oldMode, hloc ▸ hold⟩, .inl rfl⟩)
      rw [hloc, ← locate_eq_ok_iff] at hl
      exact .inr (by simp [isFileAt, at?_of_locate hl hold])

theorem Lands.put {p : Path} {old : Bytes} {oldMode : Mode}
    (h : Lands here p (.file old oldMode) c d (dir ++ [name])) (content : Bytes) (mode : Mode) :
    Lands here p (.file content mode) c (d.put dir name (.file content mode)) (dir ++ [name]) := by
  have hg := Grows.put_file (.inr ⟨old, oldMode, h.stands⟩) content mode
  have hdir : d.get? dir = some .directory := d.get?_parent (by rw [h.stands]; rfl)
  exact
    { leads := hg.locate_file h.stands h.leads
      fresh := h.fresh
      stands := by rw [get?_put ⟨hdir, by simp [h.stands]⟩, if_pos rfl]
      grows := h.grows.trans hg
      others := fun loc hne => by rw [get?_put_of_ne hne, h.others loc hne] }

/-- Where the bytes of a copy go: to the place of the target, unless opening it has emptied the
source. -/
theorem copyFile_eq_ok (hhere : c.get? here = some .directory)
    (hsource : c.locate here source = .ok loc) (hfile : c.get? loc = some (.file content mode))
    (h : copyFile source target here c = (.ok (), d)) :
    ∃ place,
      Lands here target (.file (if place = loc then [] else content) mode.mended) c d place ∧
        (place ≠ loc → Whole content mode) := by
  obtain ⟨loc', content', mode', dir, name, mode'', c', hlocate, hread, hopen, hwhole, rfl⟩ :=
    exists_of_copyFile h
  obtain rfl : loc = loc' := Except.ok.inj (hsource.symm.trans hlocate)
  obtain ⟨rfl, rfl⟩ := Entry.file.inj (Option.some.inj (hfile.symm.trans hread))
  obtain ⟨-, hput, -⟩ := openFile_eq_ok hopen
  obtain ⟨hopened, -, -⟩ := openFile_arrives hhere hopen
  have hkept (hne : dir ++ [name] ≠ loc) : c'.file? loc = some (content, mode) := by
    rw [file?, hput, get?_put_of_ne (Ne.symm hne), hfile]
  -- what the source holds once the target is open
  have hcontent : (c'.file? loc).elim [] (·.1) = if dir ++ [name] = loc then [] else content := by
    split
    · rename_i heq
      simp [file?, ← heq, hopened]
    · rename_i hne
      simp [hkept hne]
  rw [hcontent]
  exact ⟨dir ++ [name], (openFile_lands hhere hopen).put _ _,
    fun hne => hwhole content mode (hkept hne)⟩

/-- A copy that fails has changed nothing, or its source ends short and the target holds what was
read. -/
theorem copyFile_lands_of_error {e : OsError} (hhere : c.get? here = some .directory)
    (h : copyFile source target here c = (.error e, d)) :
    d = c ∨ ∃ loc content mode place, c.locate here source = .ok loc ∧
      c.get? loc = some (.file content mode) ∧ EndsShort content mode e ∧ loc ≠ place ∧
      Lands here target (.file (content.take maxFile) mode.mended) c d place := by
  obtain ⟨rfl, -⟩ |
    ⟨loc, content, mode, dir, name, mode', c', hl, hfile, hshort, hapart, hopen, rfl⟩ :=
    copyFile_eq_error h
  · exact .inl rfl
  · exact .inr ⟨loc, content, mode, _, hl, hfile, hshort, hapart,
      (openFile_lands hhere hopen).put _ _⟩

end Access

namespace Files

/-- A copy that succeeded: of a file to a path, of an entry to a path, or of an entry into a
directory, where it stands at the target then. -/
inductive Copied (here : Location) (source target : Path) (c d : Disk) : Prop where
  | file : copyFile source target here c = (.ok (), d) → Copied here source target c d
  | entry {n : Nat} : copyTo source target here c = (.ok n, d) → Copied here source target c d
  | into {dir : Path} : copyInto source dir here c = (.ok target, d) → Copied here source target c d

namespace Copied

theorem copyFile_eq (hsource : c.at? here source = some (.file content mode))
    (h : Copied here source target c d) : copyFile source target here c = (.ok (), d) := by
  have hentry {n : Nat} (h : copyTo source target here c = (.ok n, d)) :
      copyFile source target here c = (.ok (), d) := by
    rcases copyTo_eq_ok h with ⟨hdir, -⟩ | ⟨-, -, h, -⟩
    · simp [isDirAt, hsource] at hdir
    · exact h
  cases h with
  | file h => exact h
  | entry h => exact hentry h
  | into h =>
    obtain ⟨name, n, -, heq, h⟩ := copyInto_eq_ok h
    exact hentry (heq ▸ h)

variable (hhere : c.get? here = some .directory)
variable (hsource : c.at? here source = some (.file content mode))
include hhere hsource

/-- Afterwards both paths lead to places. The target's holds the file, or an empty one where it is
the source's as well. -/
theorem places (h : Copied here source target c d) :
    ∃ loc place, d.locate here source = .ok loc ∧ d.locate here target = .ok place ∧
      d.get? place = some (.file (if place = loc then [] else content) mode.mended) ∧
      (place ≠ loc → Access.Whole content mode ∧ d.get? loc = some (.file content mode)) := by
  obtain ⟨loc, hlocate, hfile⟩ := exists_locate_of_at? hsource
  obtain ⟨⟨⟩, c', hparent, hcopy⟩ := bind_eq_ok_iff.1 (h.copyFile_eq hsource)
  have hextends : c.Extends c' := (ensureParent_extends target).of_eq hparent
  have hlocate' := hextends.grows.locate_file hfile hlocate
  rw [mapError_eq_ok_iff] at hcopy
  have hg : c'.Grows d := (Access.copyFile_grows source target).of_eq hcopy
  obtain ⟨place, hlands, hwhole⟩ :=
    Access.copyFile_eq_ok (hextends here _ hhere) hlocate' (hextends loc _ hfile) hcopy
  refine ⟨loc, place, hg.locate_file (hextends loc _ hfile) hlocate', hlands.leads, hlands.stands,
    fun hne => ⟨hwhole hne, ?_⟩⟩
  rw [hlands.others loc (Ne.symm hne), hextends loc _ hfile]

/-- A copy leaves its source as it was and its target equal to it where their paths lead to
different places; the copy of a file onto itself empties it. -/
theorem kept_or_emptied (h : Copied here source target c d) :
    (d.locate here target ≠ d.locate here source →
      d.at? here source = some (.file content mode) ∧
        d.at? here target = some (.file content mode)) ∧
    (d.locate here target = d.locate here source →
      d.at? here source = some (.file [] mode.mended)) := by
  obtain ⟨loc, place, hlocated, htarget, hput, hkept⟩ := h.places hhere hsource
  rw [htarget, hlocated, ne_eq, Except.ok.injEq]
  constructor
  · intro hne
    obtain ⟨hwhole, hfile⟩ := hkept hne
    rw [if_neg hne, Mode.mended_of_sound hwhole.sound] at hput
    exact ⟨at?_of_locate hlocated hfile, at?_of_locate htarget hput⟩
  · intro heq
    rw [if_pos heq, heq] at hput
    exact at?_of_locate hlocated hput

end Copied

section Samples

def aliases : Disk :=
  diskOf [([], "a", .file [65] .data), ([], "l", .link ⟨"a"⟩), ([], "b", .file [66] .program)]

theorem copied_of_fst (source target : Path) (c : Disk)
    (h : (copyFile source target [] c).1 = .ok ()) :
    Copied [] source target c (copyFile source target [] c).2 :=
  .file (Prod.ext h rfl)

theorem kept_or_emptied_sample : ∃ d, Copied [] ⟨"a"⟩ ⟨"b"⟩ aliases d ∧
    d.at? [] ⟨"a"⟩ = some (.file [65] .data) ∧ d.at? [] ⟨"b"⟩ = some (.file [65] .data) := by
  have hcopied := copied_of_fst ⟨"a"⟩ ⟨"b"⟩ aliases (by decide)
  exact ⟨_, hcopied, (hcopied.kept_or_emptied (get?_root _) (by decide)).1 (by decide)⟩

/-- A file that is copied to its own path, to another spelling of it, and to a link that leads to
it, is empty afterwards. -/
theorem emptied_samples :
    aliases.at? [] ⟨"a"⟩ = some (.file [65] .data) ∧
      (∃ d, Copied [] ⟨"a"⟩ ⟨"a"⟩ aliases d ∧ d.at? [] ⟨"a"⟩ = some (.file [] .data)) ∧
      (∃ d, Copied [] ⟨"a"⟩ ⟨"./a"⟩ aliases d ∧ d.at? [] ⟨"a"⟩ = some (.file [] .data)) ∧
      (∃ d, Copied [] ⟨"a"⟩ ⟨"x/../a"⟩ aliases d ∧ d.at? [] ⟨"a"⟩ = some (.file [] .data)) ∧
      ∃ d, Copied [] ⟨"a"⟩ ⟨"l"⟩ aliases d ∧ d.at? [] ⟨"a"⟩ = some (.file [] .data) :=
  ⟨by decide, ⟨_, copied_of_fst _ _ _ (by decide), by decide⟩,
    ⟨_, copied_of_fst _ _ _ (by decide), by decide⟩,
    ⟨_, copied_of_fst _ _ _ (by decide), by decide⟩,
    ⟨_, copied_of_fst _ _ _ (by decide), by decide⟩⟩

end Samples

end Files

end GemStaging
