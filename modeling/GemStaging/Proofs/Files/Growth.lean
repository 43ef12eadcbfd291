import GemStaging.Files.Copy
import GemStaging.Proofs.Disk.Growth
import GemStaging.Proofs.Effect.Moves
import GemStaging.Proofs.Text.Decoding

/-!
No operation on files removes anything: each of them moves the disk to a grown one, also where it
fails half way. What an operation made is there afterwards, and making it again changes nothing.
-/

namespace GemStaging

open Effect Disk

variable {here : Location}

namespace Access

theorem dropLast_append_of_getLast? {loc : Location} {name : String}
    (h : loc.getLast? = some name) : loc.dropLast ++ [name] = loc := by
  obtain ⟨init, rfl⟩ := List.getLast?_eq_some_iff.1 h
  simp

section MakeDirs
variable {R : Disk → Disk → Prop} [IsPreorder Disk R]

theorem makeDir_moves {p : Path} (h : ∀ d dir name,
    d.resolve here .makeDirectory p = .ok (.free dir name) → R d (d.put dir name .directory)) :
    Moves R here (makeDir p) := by
  intro d
  simp only [makeDir]
  split
  · exact refl_of R d
  · exact refl_of R d
  · rename_i dir name hfree
    exact h d dir name hfree

theorem settle_moves (p : Path) (e : OsError) : Moves R here (settle p e) :=
  .bind (.still fun _ => rfl) fun _ => .ite (.pure ()) (.fail e)

theorem makeOrKeepDir_moves {p : Path} (h : Moves R here (makeDir p)) :
    Moves R here (makeOrKeepDir p) := by
  refine .bind h.attempt ?_
  rintro (e | ⟨⟩)
  · exact settle_moves p e
  · exact .pure ()

section OnTheWay
variable {onTheWay : Path → Prop}
variable (hup : ∀ p parent, onTheWay p → p.parent? = some parent → onTheWay parent)
variable (hmake : ∀ p, onTheWay p → Moves R here (makeDir p))
include hup hmake

theorem makeDirsFrom_moves (fuel : Nat) {p : Path} (hp : onTheWay p) :
    Moves R here (makeDirsFrom fuel p) := by
  induction fuel generalizing p with
  | zero => exact .fail _
  | succ fuel ih =>
    refine .bind (hmake p hp).attempt ?_
    rintro (e | ⟨⟩)
    · cases e with
      | notFound =>
        cases hparent : p.parent? with
        | none => exact .fail _
        | some parent =>
          simp only
          split
          · exact .bind (ih (hup p parent hp hparent)) fun _ => makeOrKeepDir_moves (hmake p hp)
          · exact makeOrKeepDir_moves (hmake p hp)
      | _ => exact settle_moves p _
    · exact .pure ()

theorem makeDirs_moves {p : Path} (hp : onTheWay p) : Moves R here (makeDirs p) :=
  .ite (.pure ()) (makeDirsFrom_moves hup hmake _ hp)

end OnTheWay

end MakeDirs

theorem makeDir_extends (p : Path) : Moves Extends here (makeDir p) :=
  makeDir_moves fun _ _ _ hfree => .put_new (get?_of_free hfree) _

theorem makeDirsFrom_extends (fuel : Nat) (p : Path) :
    Moves Extends here (makeDirsFrom fuel p) :=
  makeDirsFrom_moves (fun _ _ _ _ => trivial) (fun p _ => makeDir_extends p) fuel trivial

theorem makeDirs_extends (p : Path) : Moves Extends here (makeDirs p) :=
  makeDirs_moves (fun _ _ _ _ => trivial) (fun p _ => makeDir_extends p) trivial

/-- What opening a file for writing comes to: the file is empty from then on, and its place is
known. -/
theorem openFile_eq_ok {p : Path} {given mode : Mode} {dir : Location} {name : String}
    {c d : Disk} (h : openFile p given here c = (.ok (dir, name, mode), d)) :
    (∃ t, c.resolve here .makeFile p = .ok t ∧ t.loc = dir ++ [name]) ∧
      d = c.put dir name (.file [] mode) ∧
      (c.get? (dir ++ [name]) = none ∧ mode = given ∨
        ∃ content old, c.get? (dir ++ [name]) = some (.file content old) ∧ old.writable ∧
          mode = old.mended) := by
  simp only [openFile] at h
  split at h
  · simp at h
  · rename_i dir' name' hfree
    obtain ⟨hplace, rfl⟩ := Prod.mk.inj h
    obtain ⟨rfl, rfl, rfl⟩ := by simpa using hplace
    exact ⟨⟨_, hfree, rfl⟩, rfl, .inl ⟨get?_of_free hfree, rfl⟩⟩
  · rename_i loc hentry
    split at h
    · rename_i content old name' hfile hname
      split at h
      · rename_i hwritable
        obtain ⟨hplace, rfl⟩ := Prod.mk.inj h
        obtain ⟨rfl, rfl, rfl⟩ := by simpa using hplace
        have hloc := dropLast_append_of_getLast? hname
        refine ⟨⟨_, hentry, hloc.symm⟩, rfl, .inr ⟨content, old, ?_, hwritable, rfl⟩⟩
        rw [hloc, hfile]
      · simp at h
    · simp at h

theorem openFile_eq_error {p : Path} {given : Mode} {e : OsError} {c d : Disk}
    (h : openFile p given here c = (.error e, d)) : d = c := by
  simp only [openFile] at h
  split at h
  · exact (Prod.mk.inj h).2.symm
  · simp at h
  · split at h
    · split at h
      · simp at h
      · exact (Prod.mk.inj h).2.symm
    · exact (Prod.mk.inj h).2.symm

theorem openFile_writable {p : Path} {given mode : Mode} {dir : Location} {name : String}
    {c d : Disk} (h : openFile p given here c = (.ok (dir, name, mode), d)) :
    c.Writable (dir ++ [name]) := by
  obtain ⟨-, -, hc⟩ := openFile_eq_ok h
  exact hc.imp (·.1) fun ⟨content, old, hfile, hwritable, _⟩ => ⟨content, old, hfile, hwritable⟩

theorem steady_of_openFile {p : Path} {given mode : Mode} {dir : Location} {name : String}
    {c d : Disk} (hgiven : given.Steady)
    (h : openFile p given here c = (.ok (dir, name, mode), d)) : mode.Steady := by
  obtain ⟨-, -, ⟨-, rfl⟩ | ⟨content, old, -, hwritable, rfl⟩⟩ := openFile_eq_ok h
  · exact hgiven
  · exact Mode.steady_mended hwritable

theorem openFile_takesFile {p : Path} {given mode : Mode} {dir : Location} {name : String}
    {c d : Disk} (h : openFile p given here c = (.ok (dir, name, mode), d)) :
    c.TakesFile (dir ++ [name]) ∧ d.TakesFile (dir ++ [name]) := by
  obtain ⟨-, rfl, -⟩ := openFile_eq_ok h
  have : c.TakesFile (dir ++ [name]) := (openFile_writable h).takesFile
  exact ⟨this, this.put _ _⟩

theorem openFile_arrives {p : Path} {given mode : Mode} {dir : Location} {name : String}
    {c d : Disk} (hhere : c.get? here = some .directory)
    (h : openFile p given here c = (.ok (dir, name, mode), d)) :
    d.get? (dir ++ [name]) = some (.file [] mode) ∧ d.get? dir = some .directory ∧
      ∀ e, d.Grows e → ∀ purpose, purpose = .look ∨ purpose = .makeFile →
        e.resolve here purpose p = .ok (.entry (dir ++ [name])) := by
  obtain ⟨⟨t, ht, hloc⟩, rfl, hc⟩ := openFile_eq_ok h
  have hdir : c.get? dir = some .directory := by
    cases t with
    | entry loc =>
      obtain ⟨e, he, -⟩ := resolve_sound hhere ht
      rw [show loc = dir ++ [name] from hloc] at he
      exact c.get?_parent (by rw [he]; rfl)
    | free dir' name' =>
      obtain ⟨rfl, -⟩ : dir' = dir ∧ name' = name := by simpa [Target.loc] using hloc
      exact (resolve_sound hhere ht).1
  have hadmits : c.admits dir name (.file [] mode) := by
    refine ⟨hdir, fun hd => ?_⟩
    rcases hc with ⟨hnone, -⟩ | ⟨content, old, hfile, -⟩
    · simp [hd] at hnone
    · simp [hd] at hfile
  have hfile : (c.put dir name (.file [] mode)).get? (dir ++ [name]) = some (.file [] mode) := by
    rw [get?_put hadmits, if_pos rfl]
  refine ⟨hfile, (c.put dir name _).get?_parent (by rw [hfile]; rfl), fun e hg purpose hp => ?_⟩
  have hc' : c.Grows e := (Grows.put_file (openFile_takesFile h).1 [] mode).trans hg
  have hsettled : t.Settled e .makeFile := by
    rw [Target.Settled, hloc]
    exact .inr ⟨hg.file hfile, .inl rfl⟩
  rw [hc'.arrives hp (by rcases hp with rfl | rfl <;> rfl) ht hsettled, hloc]

theorem fill_apply (dir : Location) (name : String) (mode : Mode) (content : Bytes) (c : Disk) :
    fill dir name mode content here c =
      (if maxFile < content.length then .error .tooLarge else .ok (),
        c.put dir name (.file (content.take maxFile) mode)) := by
  rw [fill, bind_apply_ok (modify_apply _ _ _)]
  split <;> rfl

theorem fill_eq_ok_iff {dir : Location} {name : String} {mode : Mode} {content : Bytes}
    {c d : Disk} :
    fill dir name mode content here c = (.ok (), d) ↔
      content.length ≤ maxFile ∧ d = c.put dir name (.file content mode) := by
  rw [fill_apply]
  constructor
  · intro h
    obtain ⟨hok, rfl⟩ := Prod.mk.inj h
    split at hok
    · cases hok
    · rename_i hfits
      exact ⟨by omega, by rw [List.take_of_length_le (by omega)]⟩
  · rintro ⟨hfits, rfl⟩
    rw [if_neg (by omega), List.take_of_length_le hfits]

theorem writeFile_eq_ok {p : Path} {content : Bytes} {c d : Disk}
    (h : writeFile p content here c = (.ok (), d)) :
    content.length ≤ maxFile ∧ ∃ dir name mode c',
      openFile p .data here c = (.ok (dir, name, mode), c') ∧
        d = c'.put dir name (.file content mode) := by
  obtain ⟨⟨dir, name, mode⟩, c', hopen, h⟩ := bind_eq_ok_iff.1 h
  obtain ⟨hfits, rfl⟩ := fill_eq_ok_iff.1 h
  exact ⟨hfits, dir, name, mode, c', hopen, rfl⟩

theorem fillFrom_apply (loc dir : Location) (name : String) (mode : Mode) (c : Disk) :
    fillFrom loc dir name mode here c =
      (if maxFile < ((c.file? loc).getD ([], .data)).1.length then .error .tooLarge
        else if ((c.file? loc).getD ([], .data)).2.sound then .ok () else .error .inputOutput,
        c.put dir name (.file (((c.file? loc).getD ([], .data)).1.take maxFile) mode)) := by
  rw [fillFrom, bind_apply_ok (get_apply _ _), bind_apply, fill_apply]
  generalize (c.file? loc).getD ([], .data) = held
  by_cases hfits : maxFile < held.1.length <;> cases hsound : held.2.sound <;> simp [hfits]

/-- A file that a copy gets to its end. -/
structure Whole (content : Bytes) (mode : Mode) : Prop where
  fits : content.length ≤ maxFile
  sound : mode.sound

instance (content : Bytes) (mode : Mode) : Decidable (Whole content mode) :=
  decidable_of_iff (content.length ≤ maxFile ∧ mode.sound)
    ⟨fun ⟨hfits, hsound⟩ => ⟨hfits, hsound⟩, fun h => ⟨h.fits, h.sound⟩⟩

/-- Why a copy does not get to the end of a file. -/
inductive EndsShort (content : Bytes) (mode : Mode) : OsError → Prop where
  | large (h : maxFile < content.length) : EndsShort content mode .tooLarge
  | unsound (h : mode.sound = false) : EndsShort content mode .inputOutput

theorem EndsShort.not_whole {content : Bytes} {mode : Mode} {e : OsError}
    (h : EndsShort content mode e) : ¬ Whole content mode := by
  rintro ⟨hfits, hsound⟩
  cases h with
  | large h => omega
  | unsound h => simp [h] at hsound

theorem fillFrom_eq_ok_iff {loc dir : Location} {name : String} {mode : Mode} {c d : Disk} :
    fillFrom loc dir name mode here c = (.ok (), d) ↔
      (∀ content held, c.file? loc = some (content, held) → Whole content held) ∧
        d = c.put dir name (.file ((c.file? loc).elim [] (·.1)) mode) := by
  rw [fillFrom_apply]
  cases c.file? loc with
  | none => simp [Mode.data, eq_comm]
  | some file =>
    obtain ⟨content, held⟩ := file
    simp only [Option.getD_some, Option.elim_some, Option.some.injEq, Prod.mk.injEq]
    constructor
    · rintro ⟨hok, rfl⟩
      split at hok
      · cases hok
      rename_i hfits
      split at hok
      · rename_i hsound
        refine ⟨?_, by rw [List.take_of_length_le (by omega)]⟩
        rintro _ _ ⟨rfl, rfl⟩
        exact ⟨by omega, hsound⟩
      · cases hok
    · rintro ⟨hwhole, rfl⟩
      have hw := hwhole content held ⟨rfl, rfl⟩
      rw [if_neg (Nat.not_lt.2 hw.fits), if_pos hw.sound, List.take_of_length_le hw.fits]
      exact ⟨rfl, rfl⟩

theorem fillFrom_eq_error {loc dir : Location} {name : String} {mode : Mode} {e : OsError}
    {c d : Disk} (h : fillFrom loc dir name mode here c = (.error e, d)) :
    ∃ content held, c.file? loc = some (content, held) ∧
      EndsShort content held e ∧ d = c.put dir name (.file (content.take maxFile) mode) := by
  rw [fillFrom_apply] at h
  cases hfile : c.file? loc with
  | none => simp [hfile, Mode.data] at h
  | some file =>
    obtain ⟨content, held⟩ := file
    simp only [hfile, Option.getD_some, Prod.mk.injEq] at h
    obtain ⟨hcause, rfl⟩ := h
    refine ⟨content, held, rfl, ?_, rfl⟩
    split at hcause
    · rename_i hlarge
      exact Except.error.inj hcause ▸ .large hlarge
    · split at hcause
      · cases hcause
      · rename_i hsound
        exact Except.error.inj hcause ▸ .unsound (by simpa using hsound)

/-- A file that is there once a file was opened is that one, empty by then, or was there before. -/
theorem file_of_openFile {p : Path} {given mode mode' : Mode} {dir loc : Location} {name : String}
    {content : Bytes} {c d : Disk} (hgiven : given.sound)
    (h : openFile p given here c = (.ok (dir, name, mode), d))
    (hfile : d.get? loc = some (.file content mode')) :
    content = [] ∧ mode'.sound ∨
      loc ≠ dir ++ [name] ∧ c.get? loc = some (.file content mode') := by
  obtain ⟨-, rfl, hbefore⟩ := openFile_eq_ok h
  by_cases hloc : loc = dir ++ [name]
  · subst hloc
    have hadmits : c.admits dir name (.file [] mode) := by
      by_contra hrefused
      rw [put, dif_neg hrefused] at hfile
      exact hrefused ⟨c.get?_parent (by rw [hfile]; rfl), by simp [hfile]⟩
    rw [get?_put hadmits, if_pos rfl] at hfile
    cases hfile
    rcases hbefore with ⟨-, rfl⟩ | ⟨_, old, -, -, rfl⟩
    · exact .inl ⟨rfl, hgiven⟩
    · exact .inl ⟨rfl, rfl⟩
  · rw [get?_put_of_ne hloc] at hfile
    exact .inr ⟨hloc, hfile⟩

theorem whole_of_openFile {p : Path} {given mode mode' : Mode} {dir loc : Location} {name : String}
    {content : Bytes} {c d : Disk} (hgiven : given.sound)
    (h : openFile p given here c = (.ok (dir, name, mode), d))
    (hold : ∀ content mode', c.get? loc = some (.file content mode') → Whole content mode')
    (hfile : d.get? loc = some (.file content mode')) : Whole content mode' := by
  rcases file_of_openFile hgiven h hfile with ⟨rfl, hsound⟩ | ⟨-, hfile⟩
  · exact ⟨Nat.zero_le _, hsound⟩
  · exact hold content mode' hfile

section Opening
variable {R : Disk → Disk → Prop} [IsPreorder Disk R] {p source target : Path} {given : Mode}

theorem openFile_moves (h : ∀ c dir name mode d,
    openFile p given here c = (.ok (dir, name, mode), d) →
      R c (c.put dir name (.file [] mode))) : Moves R here (openFile p given) := by
  intro c
  obtain ⟨e, d, hopen⟩ | ⟨⟨dir, name, mode⟩, d, hopen⟩ :=
    (openFile p given).error_or_ok here c
  · rw [hopen, openFile_eq_error hopen]
    exact refl_of R c
  · obtain ⟨-, rfl, -⟩ := openFile_eq_ok hopen
    rw [hopen]
    exact h c dir name mode _ hopen

theorem openFile_bind_moves {α : Type} {f : Location × String × Mode → Access α}
    (h : ∀ c dir name mode d, openFile p given here c = (.ok (dir, name, mode), d) →
      R c (f (dir, name, mode) here d).2) : Moves R here (openFile p given >>= f) := by
  intro c
  obtain ⟨e, d, hopen⟩ | ⟨⟨dir, name, mode⟩, d, hopen⟩ :=
    (openFile p given).error_or_ok here c
  · rw [bind_apply_error hopen, openFile_eq_error hopen]
    exact refl_of R c
  · rw [bind_apply_ok hopen]
    exact h c dir name mode d hopen

theorem openFile_grows (p : Path) (given : Mode) :
    Moves Grows here (openFile p given) := by
  refine openFile_moves ?_
  intro c dir name mode d h
  exact .put_file (openFile_takesFile h).1 [] mode

/-- Writing a file moves the disk as putting what has room where its path was opened does. -/
theorem writeFile_moves {content : Bytes}
    (h : ∀ c dir name mode d, openFile p .data here c = (.ok (dir, name, mode), d) →
      R c (d.put dir name (.file (content.take maxFile) mode))) :
    Moves R here (writeFile p content) := by
  refine openFile_bind_moves ?_
  intro c dir name mode d hopen
  simp only [fill_apply]
  exact h c dir name mode d hopen

theorem copyFile_moves (h : ∀ given c dir name mode d,
    openFile target given here c = (.ok (dir, name, mode), d) →
      ∀ content mode', R c (d.put dir name (.file content mode'))) :
    Moves R here (copyFile source target) := by
  refine .bind (.still fun _ => rfl) fun from' => .bind .get fun d => ?_
  split
  · exact .fail _
  · refine openFile_bind_moves ?_
    intro c dir name mode d hopen
    simp only [fillFrom_apply]
    exact h _ c dir name mode d hopen _ _

theorem put_grows {mode : Mode} {dir : Location} {name : String} {c d : Disk}
    (h : openFile p given here c = (.ok (dir, name, mode), d)) (content : Bytes)
    (mode' : Mode) : c.Grows (d.put dir name (.file content mode')) :=
  ((openFile_grows p given).of_eq h).trans (.put_file (openFile_takesFile h).2 content mode')

theorem writeFile_grows (p : Path) (content : Bytes) : Moves Grows here (writeFile p content) :=
  writeFile_moves fun _ _ _ _ _ hopen => put_grows hopen _ _

theorem copyFile_grows (source target : Path) : Moves Grows here (copyFile source target) :=
  copyFile_moves fun _ _ _ _ _ _ hopen => put_grows hopen

end Opening

/-- A copy that succeeds opens the target with the mode of the source, and puts there what the
source holds then. -/
theorem exists_of_copyFile {source target : Path} {c d : Disk}
    (h : copyFile source target here c = (.ok (), d)) :
    ∃ loc content mode dir name mode' c', c.locate here source = .ok loc ∧
      c.get? loc = some (.file content mode) ∧
      openFile target mode.mended here c = (.ok (dir, name, mode'), c') ∧
      (∀ content held, c'.file? loc = some (content, held) → Whole content held) ∧
      d = c'.put dir name (.file ((c'.file? loc).elim [] (·.1)) mode.mended) := by
  obtain ⟨loc, c₁, hlocate, h⟩ := bind_eq_ok_iff.1 h
  obtain ⟨hl, rfl⟩ := Prod.mk.inj hlocate
  obtain ⟨disk, c₁, hget, h⟩ := bind_eq_ok_iff.1 h
  obtain ⟨rfl, rfl⟩ := ok_inj hget
  cases hfile : c.file? loc with
  | none => simp [hfile] at h
  | some file =>
    obtain ⟨content, mode⟩ := file
    simp only [hfile] at h
    obtain ⟨⟨dir, name, mode'⟩, c', hopen, h⟩ := bind_eq_ok_iff.1 h
    obtain ⟨hwhole, rfl⟩ := fillFrom_eq_ok_iff.1 h
    exact ⟨loc, content, mode, dir, name, mode', c', hl, file?_eq_some_iff.1 hfile, hopen, hwhole,
      rfl⟩

/-- A copy that fails has changed nothing where the source cannot be found or is no file, and where
the target cannot be opened. Else the source ends short, and what was read is left at the target. -/
theorem copyFile_eq_error {source target : Path} {e : OsError} {c d : Disk}
    (h : copyFile source target here c = (.error e, d)) :
    d = c ∧ (c.locate here source = .error e ∨ e = .notRegularSource ∨
      ∃ given, openFile target given here c = (.error e, d)) ∨
    ∃ loc content mode dir name mode' c', c.locate here source = .ok loc ∧
      c.get? loc = some (.file content mode) ∧
      EndsShort content mode e ∧ loc ≠ dir ++ [name] ∧
      openFile target mode.mended here c = (.ok (dir, name, mode'), c') ∧
      d = c'.put dir name (.file (content.take maxFile) mode.mended) := by
  obtain h | ⟨loc, c₁, hloc, h⟩ := bind_eq_error_iff.1 h
  · obtain ⟨hl, rfl⟩ := Prod.mk.inj h
    exact .inl ⟨rfl, .inl hl⟩
  obtain ⟨hl, rfl⟩ := Prod.mk.inj hloc
  obtain h | ⟨c', c₁, hget, h⟩ := bind_eq_error_iff.1 h
  · cases (Prod.mk.inj h).1
  obtain ⟨rfl, rfl⟩ := ok_inj hget
  cases hfile : c.file? loc with
  | none =>
    simp only [hfile] at h
    obtain ⟨he, rfl⟩ := Prod.mk.inj h
    exact .inl ⟨rfl, .inr (.inl (Except.error.inj he).symm)⟩
  | some file =>
    obtain ⟨content, mode⟩ := file
    simp only [hfile] at h
    obtain h | ⟨⟨dir, name, mode'⟩, c', hopen, h⟩ := bind_eq_error_iff.1 h
    · exact .inl ⟨openFile_eq_error h, .inr (.inr ⟨_, h⟩)⟩
    · rw [file?_eq_some_iff] at hfile
      obtain ⟨read, held, hread, hshort, rfl⟩ := fillFrom_eq_error h
      rcases file_of_openFile rfl hopen (file?_eq_some_iff.1 hread) with
        ⟨rfl, hsound⟩ | ⟨hapart, hheld⟩
      · exact absurd ⟨Nat.zero_le _, hsound⟩ hshort.not_whole
      · obtain ⟨rfl, rfl⟩ := Entry.file.inj (Option.some.inj (hfile.symm.trans hheld))
        exact .inr ⟨loc, content, mode, dir, name, mode', _, hl, hfile, hshort, hapart, hopen, rfl⟩

theorem makeDirs_of_isDirAt {p : Path} {d : Disk} (h : d.isDirAt here p) :
    makeDirs p here d = (.ok (), d) := by
  obtain ⟨loc, hl, -⟩ := isDirAt_iff.1 h
  obtain ⟨loc', hl'⟩ := resolve_stops hl
  have hmake : makeDir p here d = (.error .exists, d) := by simp [makeDir, hl']
  have hattempt : ((makeDir p).attempt : Access _) here d = (.ok (.error .exists), d) := by
    simp [attempt_apply, hmake]
  rw [makeDirs]
  split
  · rfl
  · rw [makeDirsFrom, bind_apply_ok hattempt]
    simp [settle, bind_apply, isDir, h]

theorem makeDir_arrives {p : Path} {c d : Disk} (hhere : c.get? here = some .directory)
    (h : makeDir p here c = (.ok (), d)) :
    ∃ loc, d.resolve here .look p = .ok (.entry loc) ∧ d.get? loc = some .directory ∧
      c.get? loc = none := by
  simp only [makeDir] at h
  split at h
  · simp at h
  · simp at h
  · rename_i dir name hfree
    obtain ⟨-, rfl⟩ := Prod.mk.inj h
    obtain ⟨hdir, hnone⟩ := resolve_sound hhere hfree
    have hput : (c.put dir name .directory).get? (dir ++ [name]) = some .directory := by
      rw [get?_put ⟨hdir, fun _ => rfl⟩, if_pos rfl]
    have hg := (Extends.put_new hnone .directory).grows
    exact ⟨_, hg.arrives (.inl rfl) rfl hfree (.inl hput), hput, hnone⟩

theorem isDirAt_of_makeDir {p : Path} {c d : Disk} (hhere : c.get? here = some .directory)
    (h : makeDir p here c = (.ok (), d)) : d.isDirAt here p := by
  obtain ⟨loc, hl, hdir, -⟩ := makeDir_arrives hhere h
  exact isDirAt_iff.2 ⟨loc, hl, hdir⟩

theorem isDirAt_of_settle {p : Path} {e : OsError} {c d : Disk}
    (h : settle p e here c = (.ok (), d)) : d.isDirAt here p := by
  simp only [settle, bind_eq_ok_iff] at h
  obtain ⟨there, c', hc, h⟩ := h
  obtain ⟨rfl, rfl⟩ := by simpa [isDir] using hc
  split at h
  · rename_i hdir
    obtain ⟨-, rfl⟩ := Prod.mk.inj h
    exact hdir
  · simp at h

theorem isDirAt_of_makeOrKeepDir {p : Path} {c d : Disk} (hhere : c.get? here = some .directory)
    (h : makeOrKeepDir p here c = (.ok (), d)) : d.isDirAt here p := by
  obtain ⟨x, c', hc, h⟩ := bind_eq_ok_iff.1 h
  rw [attempt_apply] at hc
  obtain ⟨hx, hc'⟩ := Prod.mk.inj hc
  cases x with
  | error e => exact isDirAt_of_settle h
  | ok u =>
    obtain ⟨-, rfl⟩ := Prod.mk.inj h
    exact isDirAt_of_makeDir hhere (Prod.ext (Except.ok.inj hx) hc')

theorem isDirAt_of_makeDirs {p : Path} {c d : Disk} (hhere : c.get? here = some .directory)
    (hp : ¬ p.text.isEmpty) (h : makeDirs p here c = (.ok (), d)) : d.isDirAt here p := by
  rw [makeDirs, if_neg hp, makeDirsFrom] at h
  obtain ⟨x, c', hc, h⟩ := bind_eq_ok_iff.1 h
  rw [attempt_apply] at hc
  obtain ⟨hx, hc'⟩ := Prod.mk.inj hc
  have hhere' : c'.get? here = some .directory := hc' ▸ makeDir_extends p c here .directory hhere
  cases x with
  | ok u =>
    obtain ⟨-, rfl⟩ := Prod.mk.inj h
    exact isDirAt_of_makeDir hhere (Prod.ext (Except.ok.inj hx) hc')
  | error e =>
    cases e with
    | notFound =>
      cases hparent : p.parent? with
      | none => simp [hparent] at h
      | some parent =>
        simp only [hparent] at h
        split at h
        · obtain ⟨_, c'', hc'', h⟩ := bind_eq_ok_iff.1 h
          have hg : c'.Extends c'' := (makeDirsFrom_extends _ parent).of_eq hc''
          exact isDirAt_of_makeOrKeepDir (hg here .directory hhere') h
        · exact isDirAt_of_makeOrKeepDir hhere' h
    | _ => exact isDirAt_of_settle h

end Access

namespace Files

theorem ensureDir_extends (p : Path) : Moves Extends here (ensureDir p) :=
  (Access.makeDirs_extends p).mapError _

theorem ensureDir_grows (p : Path) : Moves Grows here (ensureDir p) :=
  fun d => (ensureDir_extends p d).grows

theorem ensureParent_extends (p : Path) : Moves Extends here (ensureParent p) := by
  rw [ensureParent]
  split
  · exact ensureDir_extends _
  · exact .pure ()

theorem ensureParent_grows (p : Path) : Moves Grows here (ensureParent p) :=
  fun d => (ensureParent_extends p d).grows

theorem writeText_grows (p : Path) (content : String) : Moves Grows here (writeText p content) :=
  .bind (ensureParent_grows p) fun _ => (Access.writeFile_grows p _).mapError _

theorem copyFile_grows (source target : Path) : Moves Grows here (copyFile source target) :=
  .bind (ensureParent_grows target) fun _ => (Access.copyFile_grows source target).mapError _

@[simp] theorem readName_encode (name : String) : readName (Text.encode name) = name :=
  Text.decodeLossy_encode name

/-- Listing never fails: where there is no directory, nothing is listed. -/
theorem namesIn_apply (p : Path) (d : Disk) :
    namesIn p here d = (.ok (d.namesAt here p), d) := by
  have hthere : (Access.isDir p : Files Bool) here d = (.ok (d.isDirAt here p), d) := rfl
  rw [namesIn, bind_apply_ok hthere]
  split
  · rename_i hdir
    obtain ⟨loc, hl, hdir⟩ := isDirAt_iff.1 hdir
    have hlocate := locate_eq_ok_iff.2 hl
    simp [Access.list, Access.locate, mapError, bind_apply, hlocate, isDirectory, hdir, namesAt]
  · rename_i hno
    have : d.namesAt here p = [] := by
      rw [List.eq_nil_iff_forall_not_mem]
      intro name hname
      obtain ⟨loc, hl, hsome⟩ := mem_namesAt_iff.1 hname
      exact hno (isDirAt_iff.2 ⟨loc, hl, d.get?_parent hsome⟩)
    simp [this]

theorem listNames_apply (p : Path) (d : Disk) :
    listNames p here d = (.ok (d.namesAt here p), d) := by
  rw [listNames, bind_apply_ok (namesIn_apply p d)]
  simp [Function.comp_def]

theorem listDir_apply (p : Path) (d : Disk) :
    listDir p here d = (.ok ((d.namesAt here p).map (p / ·)), d) := by
  rw [listDir, bind_apply_ok (namesIn_apply p d)]
  rfl

theorem follow_unmoved (above : Trail) (p : Path) : Moves Eq here (follow above p) := by
  refine .bind .get fun d => .bind .place fun here => ?_
  split
  · exact .fail _
  · split
    · split
      · exact .fail _
      · split
        · exact .fail _
        · exact .pure _
    · exact .pure _

theorem list_unmoved (p : Path) : Moves Eq here (Access.list p) := by
  refine .bind (.still fun _ => rfl) fun loc => .bind .get fun d => ?_
  exact .ite (.pure _) (.fail _)

theorem sumNames_moves {R : Disk → Disk → Prop} [IsPreorder Disk R] {f : String → Files Nat}
    {names : List String} (hf : ∀ name ∈ names, Moves R here (f name)) :
    Moves R here (sumNames f names) := by
  induction names with
  | nil => exact .pure 0
  | cons name rest ih =>
    obtain ⟨hname, hrest⟩ := List.forall_mem_cons.1 hf
    exact .bind hname fun n => .bind (ih hrest) fun _ => .pure _

theorem copyBelow_grows (source target : Path) (fuel : Nat) (above : Trail) (p : Path) :
    Moves Grows here (copyBelow source target fuel above p) := by
  induction fuel generalizing above p with
  | zero => exact .fail _
  | succ fuel ih =>
    refine .bind (follow_unmoved above p).of_unmoved fun loc => ?_
    split
    · refine .bind .get fun d => ?_
      split
      · refine .bind (list_unmoved p).of_unmoved.attempt fun names =>
          .bind (ensureDir_grows _) fun _ => ?_
        split
        · exact .fail _
        · exact sumNames_moves fun name _ => ih _ _
      · exact .bind (copyFile_grows _ _) fun _ => .pure _
    · exact .fail _

theorem copyTree_grows (source target : Path) : Moves Grows here (copyTree source target) :=
  .bind (.still fun _ => rfl) fun _ => .ite (copyBelow_grows _ _ _ _ _) (.fail _)

theorem copyTo_grows (source target : Path) : Moves Grows here (copyTo source target) :=
  .bind (.still fun _ => rfl) fun _ => .ite (copyTree_grows _ _) <|
    .bind (.still fun _ => rfl) fun _ =>
      .ite (.bind (copyFile_grows _ _) fun _ => .pure _) (.fail _)

theorem existsAt_of_openFile {p : Path} {given mode : Mode} {dir : Location} {name : String}
    {c d e : Disk} (hhere : c.get? here = some .directory)
    (h : Access.openFile p given here c = (.ok (dir, name, mode), d)) (hg : d.Grows e) :
    e.existsAt here p := by
  obtain ⟨hfile, -, harrives⟩ := Access.openFile_arrives hhere h
  exact existsAt_iff.2 ⟨_, harrives e hg .look (.inl rfl), hg.isSome (by rw [hfile]; rfl)⟩

theorem copyInto_grows (source dir : Path) : Moves Grows here (copyInto source dir) := by
  rw [copyInto]
  split
  · exact .fail _
  · exact .bind (copyTo_grows _ _) fun _ => .pure _

end Files

end GemStaging
