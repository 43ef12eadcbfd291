import GemStaging.Proofs.Files.Sparing
import GemStaging.Proofs.Files.Visiting

/-!
How many files a copy counts. Where what is copied and its target lie beside one another, a copy
that succeeds counts the files that were at or below its source when it began, wherever the path of
the target leads through (`Files.copyTo_tally`): on the way directories may be made in the source,
but no files.
-/

namespace GemStaging.Files

open Effect Disk GemStaging.Path

variable {here : Location} {source target : Path} {n : Nat} {b c d : Disk}

theorem file_of_copyFile (hc : c.Plain) (hhere : c.get? here = some .directory)
    (hne : goal here source ≠ goal here target) (h : copyFile source target here c = (.ok (), d)) :
    ∃ content mode, c.get? (goal here source) = some (.file content mode) ∧
      d.get? (goal here target) = some (.file content mode) := by
  obtain ⟨⟨⟩, c', hparent, h⟩ := bind_eq_ok_iff.1 h
  obtain ⟨hc', hspared⟩ := (ensureParent_makes target).of_eq hparent hc
  have hhere' := (ensureParent_extends target).of_eq hparent here _ hhere
  rw [mapError_eq_ok_iff] at h
  obtain ⟨⟨content, mode, hfile, -⟩, -, -, hput, -⟩ := Access.copyFile_plain hc' hhere' hne h
  exact ⟨content, mode, (hspared _ id).file_iff.1 hfile, hput.trans hfile⟩

theorem tally_of_copyFile (hc : c.Plain) (hhere : c.get? here = some .directory)
    (hbeside : Beside (goal here source) (goal here target))
    (h : copyFile source target here c = (.ok (), d)) :
    (c.filesBelow (goal here source)).card = 1 := by
  have hne : goal here source ≠ goal here target := fun heq =>
    hbeside.1 (heq ▸ List.prefix_refl _)
  obtain ⟨content, mode, hfile, -⟩ := file_of_copyFile hc hhere hne h
  rw [filesBelow_of_file hfile, Finset.card_singleton]

/-- The disk is plain, the current directory is there, and the files at or below a place are those
of an earlier disk. -/
structure Untouched (here place : Location) (b c : Disk) : Prop where
  plain : c.Plain
  home : c.get? here = some .directory
  spared : ∀ rest, SparedAt (place ++ rest) b c

namespace Untouched
variable {place : Location}

theorem card_eq (h : Untouched here place b c) (rest : Location) :
    (c.filesBelow (place ++ rest)).card = (b.filesBelow (place ++ rest)).card := by
  refine congrArg Finset.card (filesBelow_congr fun more => ?_)
  rw [List.append_assoc]
  exact (h.spared _).file?_eq

theorem step {region : Location → Prop} (h : Untouched here place b c) (hg : c.Grows d)
    (hspares : Spares region c d) (hregion : ∀ rest, ¬ region (place ++ rest)) :
    Untouched here place b d where
  plain := (hspares h.plain).1
  home := hg.directory h.home
  spared rest := (h.spared rest).trans ((hspares h.plain).2 _ (hregion rest))

end Untouched

/-- Turns that leave a place untouched, and count what is below their names there, count what was
there at first. -/
theorem sumNames_tally {place : Location} {f : String → Files Nat} {names : List String}
    (hturn : ∀ name ∈ names, ∀ c k d, Untouched here place b c → f name here c = (.ok k, d) →
      Untouched here place b d ∧ k = (c.filesBelow (place ++ [name])).card)
    (hc : Untouched here place b c) (h : sumNames f names here c = (.ok n, d)) :
    n = (names.map fun name => (b.filesBelow (place ++ [name])).card).sum := by
  have hkeeps : ∀ name ∈ names, ∀ c k d, Untouched here place b c → f name here c = (.ok k, d) →
      Untouched here place b d := fun name hname c k d hc hf => (hturn name hname c k d hc hf).1
  refine eq_sum_of_turns hkeeps hc (fun name hname c k d hc hf => ?_) h
  rw [(hturn name hname c k d hc hf).2, hc.card_eq]

section Copying
variable (hbeside : Beside (goal here source) (goal here target))
include hbeside

theorem copyBelow_tally (hsteps : source.steps ≠ []) (fuel : Nat) (above : Trail)
    {names : List String} (hnames : ∀ name ∈ names, IsName name) (hc : c.Plain)
    (hhere : c.get? here = some .directory)
    (h : copyBelow source target fuel above (source.below names) here c = (.ok n, d)) :
    n = (c.filesBelow (goal here source ++ names)).card := by
  induction fuel generalizing above names n c d with
  | zero => simp [copyBelow] at h
  | succ fuel ih =>
    obtain ⟨hdir, c', trail, hensure, h⟩ | ⟨-, hcopy, rfl⟩ :=
      copyBelow_cases hsteps hnames hc h
    · -- until the names were copied in turn, nothing changes below this directory
      have hstart : Untouched here (goal here source ++ names) c c :=
        ⟨hc, hhere, fun _ => .refl c⟩
      have hmade := hstart.step ((ensureDir_grows _).of_eq hensure)
        ((ensureDir_makes _).of_eq hensure) fun _ => id
      rw [card_filesBelow hdir]
      refine sumNames_tally (fun name hname c₁ k c₂ hturn hcopy => ?_) hmade h
      have hnames' := isName_of_mem_concat hnames (hc.isName_of_mem_names hname)
      have hspares : Spares (goal here target <+: ·) c₁ c₂ :=
        (copyBelow_spares hsteps (fun rest => List.prefix_append _ rest) _ _ hnames').of_eq hcopy
      have hkept := hturn.step ((copyBelow_grows _ _ _ _ _).of_eq hcopy) hspares fun rest =>
        ((hbeside.left names).left rest).2
      rw [List.append_assoc]
      exact ⟨hkept, ih _ hnames' hturn.plain hturn.home hcopy⟩
    · have hbeside' : Beside (goal here (source.below names))
          (goal here (target.join (ofNames names))) := by
        rw [goal_below hnames, goal_join_ofNames hnames]
        exact hbeside.append names names
      have hone := tally_of_copyFile hc hhere hbeside' hcopy
      rw [goal_below hnames] at hone
      exact hone.symm

theorem copyTo_tally (hc : c.Plain) (hhere : c.get? here = some .directory)
    (h : copyTo source target here c = (.ok n, d)) :
    n = (c.filesBelow (goal here source)).card := by
  obtain ⟨hdir, h⟩ | ⟨-, -, hcopy, rfl⟩ := copyTo_eq_ok h
  · obtain ⟨-, h⟩ := copyTree_eq_ok h
    have hnone : ∀ name ∈ ([] : List String), IsName name := by simp
    have hsteps := steps_ne_nil_of_isDirAt hdir
    have htally := copyBelow_tally hbeside hsteps maxDepth [] hnone hc hhere h
    rwa [List.append_nil] at htally
  · exact (tally_of_copyFile hc hhere hbeside hcopy).symm

end Copying

end GemStaging.Files
