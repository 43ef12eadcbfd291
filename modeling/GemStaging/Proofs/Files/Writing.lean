import GemStaging.Proofs.Disk.Threading
import GemStaging.Proofs.Files.Rewriting

/-!
Writing a file into a directory that is there. Nothing has to be made for it
(`Files.ensureParent_div`), one place changes, and the path of the file leads to it from then on
(`Access.exists_wrote`). Links may stand on the way, and in that place.
-/

namespace GemStaging

open Effect Disk GemStaging.Path

variable {here loc : Location} {p : Path} {name : String} {c d : Disk}

namespace Files

theorem ensureParent_div (hname : IsName name) (h : d.isDirAt here p) :
    ensureParent (p / name) here d = (.ok (), d) := by
  obtain ⟨loc, hl, hdir⟩ := isDirAt_iff.1 h
  obtain ⟨left, hthreads⟩ := exists_threads_of_look hl hdir
  obtain ⟨q, hparent⟩ : ∃ q, (p / name).parent? = some q := parent?_div hname
  rw [ensureParent, hparent]
  simp only [ensureDir, mapError_eq_ok_iff]
  by_cases htext : q.text.isEmpty
  · rw [Access.makeDirs, if_pos htext]
    rfl
  rw [← origin_div hname] at hthreads
  have hlook := hthreads.resolve_parent? (hops_div hname) hname.ne_dot hparent
    ((resolve_eq_ok_iff.1 hl).1.of_begins (begins_of_parent?_div hname hparent) htext)
  exact Access.makeDirs_of_isDirAt (isDirAt_iff.2 ⟨loc, hlook, hdir⟩)

theorem writeText_div (hname : IsName name) (h : d.isDirAt here p) (text : String) :
    writeText (p / name) text here d =
      (Access.writeFile (p / name) (Text.encode text)).mapError (unwritable (p / name)) here d := by
  rw [writeText, bind_apply_ok (ensureParent_div hname h)]

theorem writeText_div_of_refused {last : String} {e : OsError} (hname : IsName name)
    (hlast : IsName last) (he : e ≠ .notFound)
    (h : ∀ purpose, d.resolve here purpose (p / name) = .error e) (text : String) :
    writeText (p / name / last) text here d = (.error (unwritable (p / name) e), d) := by
  have hmake : Access.makeDir (p / name) here d = (.error e, d) := by
    simp only [Access.makeDir, h]
  have hisDir : d.isDirAt here (p / name) = false := by
    rw [Bool.eq_false_iff]
    intro hdir
    obtain ⟨loc, hl, -⟩ := isDirAt_iff.1 hdir
    rw [h] at hl
    cases hl
  have hsettle : Access.settle (p / name) e here d = (.error e, d) := by
    simp [Access.settle, bind_apply, Access.isDir, hisDir]
  have hdirs : Access.makeDirs (p / name) here d = (.error e, d) := by
    rw [Access.makeDirs, if_neg (not_isEmpty_div hname), Access.makeDirsFrom,
      bind_apply_ok (attempt_of_eq hmake)]
    cases e with
    | notFound => exact absurd rfl he
    | _ => exact hsettle
  have hparent : ensureParent (p / name / last) here d = (.error (unwritable (p / name) e), d) := by
    rw [ensureParent, parent?_div_div hname hlast]
    exact mapError_eq_error_iff.2 ⟨e, hdirs, rfl⟩
  rw [writeText, bind_apply_error hparent]

end Files

namespace Access

/-- A file was written at the one place that its path led to and leads to from then on. -/
structure Wrote (here : Location) (p : Path) (content : Bytes) (loc : Location) (c d : Disk) :
    Prop where
  led : ∃ t, c.resolve here .makeFile p = .ok t ∧ t.loc = loc
  takes : c.TakesFile loc
  leads : d.resolve here .makeFile p = .ok (.entry loc)
  fits : content.length ≤ maxFile
  file : ∃ mode : Mode, mode.Steady ∧ d.get? loc = some (.file content mode)
  others : ∀ k, k ≠ loc → d.get? k = c.get? k

theorem exists_wrote {content : Bytes} (hhere : c.get? here = some .directory)
    (h : writeFile p content here c = (.ok (), d)) : ∃ loc, Wrote here p content loc c d := by
  obtain ⟨hfits, dir, name, mode, c', hopen, rfl⟩ := writeFile_eq_ok h
  obtain ⟨hfile, hdir, harrives⟩ := openFile_arrives hhere hopen
  obtain ⟨hled, hput, -⟩ := openFile_eq_ok hopen
  have hadmits : c'.admits dir name (.file content mode) := ⟨hdir, by simp [hfile]⟩
  have hg := Grows.put_file (openFile_takesFile hopen).2 content mode
  refine ⟨dir ++ [name], hled, (openFile_takesFile hopen).1, harrives _ hg _ (.inr rfl), hfits,
    ?_, ?_⟩
  · exact ⟨mode, steady_of_openFile Mode.steady_data hopen, by rw [get?_put hadmits, if_pos rfl]⟩
  · intro k hk
    rw [get?_put_of_ne hk, hput, get?_put_of_ne hk]

theorem writeFile_again {content : Bytes} {mode : Mode} (hfits : content.length ≤ maxFile)
    (hmode : mode.Steady) (hl : d.resolve here .makeFile p = .ok (.entry loc))
    (hfile : d.get? loc = some (.file content mode)) :
    writeFile p content here d = (.ok (), d) := by
  rcases List.eq_nil_or_concat loc with rfl | ⟨dir, name, rfl⟩
  · simp at hfile
  rw [List.concat_eq_append] at hl hfile
  rw [writeFile, bind_apply_ok (Files.openFile_again .data hmode.writable hl hfile)]
  refine fill_eq_ok_iff.2 ⟨hfits, ?_⟩
  rw [Files.put_put_eq_refill hfile]
  refine ext_get? fun k => ?_
  rw [get?_refill]
  split
  · rename_i hk
    rw [hk, hfile, Option.map_some, Entry.refill, Mode.mended_of_sound hmode.sound]
  · rfl

theorem writeFile_congr {content : Bytes}
    (h : d.resolve here .makeFile p = d.resolve here .makeFile q) :
    writeFile p content here d = writeFile q content here d := by
  have hopen : openFile p .data here d = openFile q .data here d := by simp only [openFile, h]
  simp only [writeFile, bind_apply, hopen]

theorem writeFile_of_refused {content : Bytes} {e : OsError}
    (h : d.resolve here .makeFile p = .error e) :
    writeFile p content here d = (.error e, d) := by
  have hopen : openFile p .data here d = (.error e, d) := by simp only [openFile, h]
  rw [writeFile, bind_apply_error hopen]

end Access

end GemStaging
