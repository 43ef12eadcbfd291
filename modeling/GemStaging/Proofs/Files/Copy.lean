import GemStaging.Proofs.Files.Growth

/-!
What a copy comes to. A copy that succeeds is taken apart into the steps that it consists of, and
what was copied is there afterwards.
-/

namespace GemStaging.Files

open Effect Disk

variable {here : Location} {source target p : Path} {c d : Disk}

section Steps

/-- Copying from a place: a directory is listed, made and filled name by name; a file is copied. -/
theorem copyBelow_eq_ok (fuel : Nat) {n : Nat} {above : Trail}
    (h : copyBelow source target (fuel + 1) above p here c = (.ok n, d)) :
    ∃ loc relative, follow above p here c = (.ok loc, c) ∧ p.relativeTo? source = some relative ∧
      if c.isDirectory loc then
        ∃ names c', Access.list p here c = (.ok names, c) ∧
          ensureDir (target.join relative) here c = (.ok (), c') ∧
          sumNames (fun name => copyBelow source target fuel ((p, loc) :: above) (p / name)) names
            here c' = (.ok n, d)
      else copyFile p (target.join relative) here c = (.ok (), d) ∧ n = 1 := by
  rw [copyBelow] at h
  obtain ⟨loc, c₁, hfollow, h⟩ := bind_eq_ok_iff.1 h
  obtain rfl : c = c₁ := (follow_unmoved above p).of_eq hfollow
  cases hrelative : p.relativeTo? source with
  | none => simp [hrelative] at h
  | some relative =>
    simp only [hrelative] at h
    obtain ⟨disk, c₁, hget, h⟩ := bind_eq_ok_iff.1 h
    obtain ⟨rfl, rfl⟩ := ok_inj hget
    refine ⟨loc, relative, hfollow, rfl, ?_⟩
    split at h
    · rename_i hdir
      rw [if_pos hdir]
      obtain ⟨names, c₁, hnames, h⟩ := bind_eq_ok_iff.1 h
      rw [attempt_apply] at hnames
      obtain ⟨hlist, hdisk⟩ := Prod.mk.inj hnames
      obtain rfl : c = c₁ := hdisk ▸ list_unmoved p c
      obtain ⟨⟨⟩, c', hensure, h⟩ := bind_eq_ok_iff.1 h
      cases names with
      | error e => simp at h
      | ok names =>
        exact ⟨names, c', Prod.ext (Except.ok.inj hlist) hdisk, hensure, h⟩
    · rename_i hdir
      rw [if_neg hdir]
      obtain ⟨⟨⟩, c', hcopy, h⟩ := bind_eq_ok_iff.1 h
      obtain ⟨hn, rfl⟩ := ok_inj h
      exact ⟨hcopy, hn.symm⟩

theorem copyTree_eq_ok {n : Nat} (h : copyTree source target here c = (.ok n, d)) :
    c.isDirAt here source ∧ copyBelow source target maxDepth [] source here c = (.ok n, d) := by
  obtain ⟨dir, c₁, hdir, h⟩ := bind_eq_ok_iff.1 h
  obtain ⟨rfl, rfl⟩ : c.isDirAt here source = dir ∧ _ := ok_inj hdir
  split at h
  · rename_i hdir
    exact ⟨hdir, h⟩
  · simp at h

theorem copyTo_eq_ok {n : Nat} (h : copyTo source target here c = (.ok n, d)) :
    c.isDirAt here source ∧ copyTree source target here c = (.ok n, d) ∨
      ¬ c.isDirAt here source ∧ c.existsAt here source ∧
        copyFile source target here c = (.ok (), d) ∧ n = 1 := by
  obtain ⟨dir, c₁, hdir, h⟩ := bind_eq_ok_iff.1 h
  obtain ⟨rfl, rfl⟩ : c.isDirAt here source = dir ∧ _ := ok_inj hdir
  split at h
  · rename_i hdir
    exact .inl ⟨hdir, h⟩
  · rename_i hdir
    obtain ⟨there, c₁, hthere, h⟩ := bind_eq_ok_iff.1 h
    obtain ⟨rfl, rfl⟩ : c.existsAt here source = there ∧ _ := ok_inj hthere
    split at h
    · rename_i hthere
      obtain ⟨⟨⟩, c', hcopy, h⟩ := bind_eq_ok_iff.1 h
      obtain ⟨hn, rfl⟩ := ok_inj h
      exact .inr ⟨hdir, hthere, hcopy, hn.symm⟩
    · simp at h

theorem copyInto_eq_ok {dir q : Path} (h : copyInto source dir here c = (.ok q, d)) :
    ∃ name n, source.fileName? = some name ∧ q = dir / name ∧
      copyTo source (dir / name) here c = (.ok n, d) := by
  rw [copyInto] at h
  cases hname : source.fileName? with
  | none => simp [hname] at h
  | some name =>
    simp only [hname] at h
    obtain ⟨n, c', hcopy, h⟩ := bind_eq_ok_iff.1 h
    obtain ⟨hq, rfl⟩ := ok_inj h
    exact ⟨name, n, rfl, hq.symm, hcopy⟩

theorem steps_ne_nil_of_isDirAt (h : c.isDirAt here source) : source.steps ≠ [] := by
  intro hsteps
  obtain ⟨loc, hl, -⟩ := isDirAt_iff.1 h
  have htext : source.text = "" := Path.text_of_steps_eq_nil hsteps
  simp [resolve, htext] at hl

end Steps

section Copied
variable (hhere : c.get? here = some .directory)
include hhere

theorem existsAt_of_copyFile (h : copyFile source target here c = (.ok (), d)) :
    d.existsAt here target := by
  obtain ⟨⟨⟩, c', hparent, h⟩ := bind_eq_ok_iff.1 h
  have hhere' := (ensureParent_extends target).of_eq hparent here _ hhere
  rw [mapError_eq_ok_iff] at h
  obtain ⟨_, _, _, _, _, _, c'', -, -, hopen, -, rfl⟩ := Access.exists_of_copyFile h
  exact existsAt_of_openFile hhere' hopen (.put_file (Access.openFile_takesFile hopen).2 _ _)

theorem existsAt_of_ensureDir (htext : ¬ target.text.isEmpty)
    (h : ensureDir target here c = (.ok (), d)) : d.existsAt here target := by
  rw [ensureDir, mapError_eq_ok_iff] at h
  obtain ⟨loc, hl, hdir⟩ := isDirAt_iff.1 (Access.isDirAt_of_makeDirs hhere htext h)
  exact existsAt_iff.2 ⟨loc, hl, by rw [hdir]; rfl⟩

theorem existsAt_of_copyTo {n : Nat} (hsteps : source.steps ≠ []) (htext : ¬ target.text.isEmpty)
    (h : copyTo source target here c = (.ok n, d)) : d.existsAt here target := by
  rcases copyTo_eq_ok h with ⟨-, h⟩ | ⟨-, -, h, -⟩
  · obtain ⟨loc, relative, -, hrelative, h⟩ := copyBelow_eq_ok 4095 (copyTree_eq_ok h).2
    have hself := Path.relativeTo?_below (by simp : ∀ name ∈ [], Path.IsName name) hsteps
    obtain rfl : Path.ofNames [] = relative := Option.some.inj (hself.symm.trans hrelative)
    have hthere : d.existsAt here (target.join ⟨""⟩) := by
      split at h
      · obtain ⟨names, c', -, hensure, h⟩ := h
        have hhere' := (ensureDir_extends _).of_eq hensure here _ hhere
        have hg : c'.Grows d := (sumNames_moves fun _ _ => copyBelow_grows _ _ _ _ _).of_eq h
        exact hg.existsAt hhere'
          (existsAt_of_ensureDir hhere (mt (Path.isEmpty_of_join rfl) htext) hensure)
      · exact existsAt_of_copyFile hhere h.1
    obtain ⟨loc, hl, hsome⟩ := existsAt_iff.1 hthere
    exact existsAt_iff.2 ⟨loc, resolve_of_join_empty hl, hsome⟩
  · exact existsAt_of_copyFile hhere h

end Copied

end GemStaging.Files
