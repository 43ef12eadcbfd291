import GemStaging.Proofs.Files.Growth
import GemStaging.Staging.Repository
import GemStaging.Staging.Run

/-!
Staging removes nothing. Each step of a run, and so the run itself, moves the disk to a grown one,
whether it succeeds or fails, as long as the fetcher and the installer remove nothing.
-/

namespace GemStaging

open Effect Disk

variable {here : Location} {α : Type}

/-- A relation between disks, read between machines. -/
abbrev OnDisk (R : Disk → Disk → Prop) : Machine → Machine → Prop := InvImage R Machine.disk

abbrev OnMachine (R : Machine → Machine → Prop) : World → World → Prop := InvImage R World.machine

section Lifting
variable {R : Disk → Disk → Prop} {S : Machine → Machine → Prop}

theorem Files.lift_moves {e : Files α} (h : Moves R here e) :
    Moves (OnDisk R) here (liftM e : Work α) :=
  Moves.onPart (fun _ _ => rfl) h

theorem Work.lift_moves {e : Work α} (h : Moves S here e) :
    Moves (OnMachine S) here (liftM e : Run α) :=
  Moves.onPart (fun _ _ => rfl) h

theorem Work.note_moves [IsPreorder Disk R] (level : Log.Level) (source message : String)
    (fields : List (String × String)) :
    Moves (OnDisk R) here (Work.note level source message fields) :=
  fun m => refl_of R m.disk

theorem Run.call_moves {c : Call} {act : List Call → Work α} [IsPreorder Machine S]
    (h : ∀ calls, Moves S here (act calls)) : Moves (OnMachine S) here (Run.call c act) :=
  .bind (fun w => refl_of S w.machine) fun _ => .bind .get fun w => Work.lift_moves (h w.calls)

end Lifting

namespace Staging

theorem keepDownload_moves {R : Disk → Disk → Prop} [IsPreorder Disk R] {bytes : Bytes}
    {target : Path} (h : ∀ d dir name, d.resolve here .lookAtLink target = .ok (.free dir name) →
      R d (d.put dir name (.file bytes .data))) : Moves R here (keepDownload bytes target) := by
  intro d
  simp only [keepDownload, bind_apply, place_apply, get_apply]
  generalize d.resolve here .makeFile _ = unfinished
  cases unfinished with
  | error e => exact refl_of R d
  | ok t =>
    by_cases hlarge : Access.maxFile < bytes.length
    · simp only [if_pos hlarge]
      exact refl_of R d
    simp only [if_neg hlarge]
    cases hx : d.resolve here .lookAtLink target with
    | error e => exact refl_of R d
    | ok t =>
      cases t with
      | entry loc => exact refl_of R d
      | free dir name => exact h d dir name hx

theorem keepDownload_grows (bytes : Bytes) (target : Path) :
    Moves Grows here (keepDownload bytes target) :=
  keepDownload_moves fun _ _ _ hfree => (Extends.put_new (get?_of_free hfree) _).grows

theorem getBytes_moves {R : Disk → Disk → Prop} [IsPreorder Disk R] (t : Http.Transport)
    (url : String) : Moves (OnDisk R) here (Http.getBytes t url) :=
  .bind (Work.note_moves _ _ _ _) fun _ => .bind .get fun _ =>
    .bind (fun m => refl_of R m.disk) fun _ => .ofExcept _

theorem isFile_moves {R : Disk → Disk → Prop} [IsPreorder Disk R] (p : Path) :
    Moves (OnDisk R) here (liftM (Access.isFile p : Files Bool) : Work Bool) :=
  Files.lift_moves (.still fun _ => rfl)

namespace Repository

section Moving
variable {R : Disk → Disk → Prop} [IsPreorder Disk R] {r : Repository} {p : Package}
variable {dir target : Path}

theorem download_moves (hkeep : ∀ bytes, Moves R here (keepDownload bytes target)) :
    Moves (OnDisk R) here (r.download p target) := by
  rw [download]
  split
  · exact .fail _
  · refine .bind (Work.note_moves _ _ _ _) fun _ => .bind (getBytes_moves _ _) fun bytes => ?_
    exact .bind (Files.lift_moves (hkeep bytes)) fun _ => .pure _

/-- Getting an archive moves the disk as making its directory, copying it and keeping a download
do. -/
theorem fetch_moves (hdir : Moves R here (Files.ensureDir dir))
    (hcopy : ∀ candidate, Moves R here (Files.copyFile candidate (dir / p.archiveName)))
    (hkeep : ∀ bytes, Moves R here (keepDownload bytes (dir / p.archiveName))) :
    Moves (OnDisk R) here (r.fetch p dir) := by
  refine .bind (isFile_moves _) fun there => .ite ?_ ?_
  · exact .bind (Work.note_moves _ _ _ _) fun _ => .pure _
  · refine .bind (Files.lift_moves hdir) fun _ => ?_
    split
    · exact download_moves hkeep
    · refine .bind (isFile_moves _) fun there => .ite ?_ (download_moves hkeep)
      refine .bind (Work.note_moves _ _ _ _) fun _ => ?_
      exact .bind (Files.lift_moves (hcopy _)) fun _ => .pure _

end Moving

theorem fetch_grows (r : Repository) (p : Package) (dir : Path) :
    Moves (OnDisk Grows) here (r.fetch p dir) :=
  fetch_moves (Files.ensureDir_grows dir) (fun _ => Files.copyFile_grows _ _) fun _ =>
    keepDownload_grows _ _

end Repository

def emptyRepository : Repository := ⟨none, none, ⟨fun _ _ => .error (.io "offline")⟩⟩

/-- The installer removes nothing: it makes entries, and it may rewrite files. -/
def OnlyAdds (here : Location) (install : List Call → Path → Path → Work Unit) : Prop :=
  ∀ calls archive home, Moves (OnDisk Grows) here (install calls archive home)

def writeAll (dir : Path) : List (String × String) → Files Unit
  | [] => return ()
  | (name, text) :: rest => do
    Files.writeText (dir / name) text
    writeAll dir rest

/-- The installer that unpacks from each archive the files which are known to be in it. -/
def unpacking (contents : Path → List (String × String)) : List Call → Path → Path → Work Unit :=
  fun _ archive home => (writeAll home (contents archive) : Files Unit)

theorem writeAll_grows (dir : Path) (files : List (String × String)) :
    Moves Grows here (writeAll dir files) := by
  induction files with
  | nil => exact .pure ()
  | cons file rest ih => exact .bind (Files.writeText_grows _ _) fun _ => ih

theorem unpacking_onlyAdds (contents : Path → List (String × String)) :
    OnlyAdds here (unpacking contents) :=
  fun _ _ _ => Files.lift_moves (writeAll_grows _ _)

namespace Stager

theorem makePlaceholders_grows (ps : List Path) :
    Moves (OnDisk Grows) here (makePlaceholders ps) := by
  induction ps with
  | nil => exact .pure []
  | cons p rest ih =>
    refine .bind (Files.lift_moves (.still fun _ => rfl)) fun there => .ite ?_ ?_
    · exact .bind (Work.note_moves _ _ _ _) fun _ => ih
    · refine .bind (Files.lift_moves (Files.ensureParent_grows p)) fun _ => ?_
      refine .bind (Files.lift_moves ((Access.openFile_grows p .data).mapError _)) fun _ => ?_
      exact .bind (Work.note_moves _ _ _ _) fun _ => .bind ih fun _ => .pure _

theorem reserve_grows (s : Stager) (ps : List Path) :
    Moves (OnDisk Grows) here (s.reserve ps) :=
  .bind (Files.lift_moves (Files.ensureDir_grows _)) fun _ =>
    .bind (makePlaceholders_grows ps) fun _ => .pure _

theorem copyAllInto_grows (dir : Path) (ps : List Path) :
    Moves Grows here (copyAllInto dir ps) := by
  induction ps with
  | nil => exact .pure 0
  | cons p rest ih =>
    exact .bind (Files.copyInto_grows p dir) fun _ => .bind ih fun _ => .pure _

theorem listDir_unmoved (p : Path) : Moves Eq here (Files.listDir p) := by
  intro d
  rw [Files.listDir_apply]

theorem copyLibs_grows (dir : Path) (unpacked : List Path) :
    Moves Grows here (copyLibs dir unpacked) := by
  induction unpacked with
  | nil => exact .pure 0
  | cons p rest ih =>
    refine .bind (listDir_unmoved _).of_unmoved fun entries => ?_
    exact .bind (copyAllInto_grows dir entries) fun _ => .bind ih fun _ => .pure _

theorem copyLib_grows (s : Stager) (p : Package) : Moves Grows here (s.copyLib p) :=
  .bind (listDir_unmoved _).of_unmoved fun _ => copyLibs_grows _ _

theorem copyBins_moves {R : Disk → Disk → Prop} [IsPreorder Disk R] {s : Stager}
    {entries : List Path}
    (hcopy : ∀ entry ∈ entries, ∀ target, s.binTarget entry = .ok target →
      Moves R here (Files.copyTo entry target)) :
    Moves (OnDisk R) here (s.copyBins entries) := by
  induction entries with
  | nil => exact .pure 0
  | cons entry rest ih =>
    obtain ⟨hentry, hrest⟩ := List.forall_mem_cons.1 hcopy
    refine .bind_of (.ofExcept _) ?_
    intro m target m' htarget
    have copy : Moves (OnDisk R) here ((do
        let n ← (Files.copyTo entry target : Files Nat)
        return n + (← s.copyBins rest)) : Work Nat) :=
      .bind (Files.lift_moves (hentry target (Prod.mk.inj htarget).1)) fun _ =>
        .bind (ih hrest) fun _ => .pure _
    cases entry.fileName? with
    | some name => exact Moves.bind (Work.note_moves _ _ _ _) (fun _ => copy) m'
    | none => exact copy m'

theorem copyBin_grows (s : Stager) (p : Package) :
    Moves (OnDisk Grows) here (s.copyBin p) :=
  .bind (Files.lift_moves (listDir_unmoved _).of_unmoved) fun _ =>
    copyBins_moves fun _ _ _ _ => Files.copyTo_grows _ _

theorem copyDescriptor_grows (s : Stager) (p : Package) :
    Moves (OnDisk Grows) here (s.copyDescriptor p) := by
  refine .bind (Files.lift_moves ?_) fun names => ?_
  · exact .still fun d => by rw [Files.listNames_apply]
  · split
    · exact .fail _
    · refine .bind (Work.note_moves _ _ _ _) fun _ => ?_
      exact .bind (Files.lift_moves (Files.copyFile_grows _ _)) fun _ => .pure _

theorem publish_grows (s : Stager) (p : Package) : Moves (OnDisk Grows) here (s.publish p) := by
  have rest (n : Nat) : Moves (OnDisk Grows) here ((do
      let binFiles ← s.copyBin p
      let descriptor ← s.copyDescriptor p
      return { package := p.fullName, libEntries := n, binFiles, descriptor }) : Work Staged) :=
    .bind (copyBin_grows s p) fun _ => .bind (copyDescriptor_grows s p) fun _ => .pure _
  rw [publish]
  split
  · exact .bind (.pure 0) rest
  · exact .bind (Work.note_moves _ _ _ _) fun _ =>
      .bind (Files.lift_moves (copyLib_grows s p)) rest

theorem writeStubs_moves {R : Disk → Disk → Prop} [IsPreorder Disk R]
    (h : ∀ p text, Moves R here (Files.writeText p text)) (stubs : List (Path × List String)) :
    Moves (OnDisk R) here (writeStubs stubs) := by
  induction stubs with
  | nil => exact .pure []
  | cons stub rest ih =>
    refine .bind (Files.lift_moves (h _ _)) fun _ => ?_
    exact .bind (Work.note_moves _ _ _ _) fun _ => .bind ih fun _ => .pure _

theorem writeStubs_grows (stubs : List (Path × List String)) :
    Moves (OnDisk Grows) here (writeStubs stubs) :=
  writeStubs_moves Files.writeText_grows stubs

section Acting
variable {R : Disk → Disk → Prop} [IsPreorder Disk R] (hgrows : ∀ c d, c.Grows d → R c d)
variable {s : Stager} (hfetch : ∀ calls p dir, Moves (OnDisk R) here (s.fetch calls p dir))
variable (hinstall : ∀ calls archive home, Moves (OnDisk R) here (s.install calls archive home))
include hfetch hinstall

theorem obtain_moves (p : Package) : Moves (OnMachine (OnDisk R)) here (s.obtain p) :=
  .bind (Run.call_moves fun calls => hfetch calls p _) fun archive =>
    Run.call_moves fun calls => (hinstall calls archive _).mapError _

include hgrows

theorem apply_moves (r : Reservation) (a : Action) :
    Moves (OnMachine (OnDisk R)) here (s.apply r a) := by
  cases a with
  | skip p descriptor => exact .bind (Work.lift_moves (Work.note_moves _ _ _ _)) fun _ => .pure _
  | stage p =>
    have hpublish : Moves (OnDisk R) here (s.publish p) :=
      fun m => hgrows _ _ (publish_grows s p m)
    exact .bind (obtain_moves hfetch hinstall p) fun _ =>
      .bind (Work.lift_moves hpublish) fun _ => .pure _

/-- Actions move the disk along whatever the fetcher and the installer move it along and growth
does. -/
theorem applyAll_moves (r : Reservation) (actions : List Action) :
    Moves (OnMachine (OnDisk R)) here (s.applyAll r actions) := by
  induction actions with
  | nil => exact .pure _
  | cons a rest ih =>
    refine .bind (apply_moves hgrows hfetch hinstall r a).attempt fun x => ?_
    split
    · exact .pure _
    · exact .bind ih fun _ => .pure _

end Acting

end Stager

section Running
variable {R : Disk → Disk → Prop} [IsPreorder Disk R] (hgrows : ∀ c d, c.Grows d → R c d) {j : Job}
variable (hfetch : ∀ calls p dir, Moves (OnDisk R) here (j.stager.fetch calls p dir))
variable (hinstall : ∀ calls archive home,
  Moves (OnDisk R) here (j.stager.install calls archive home))
include hgrows hfetch hinstall

/-- A run moves the disk along whatever its fetcher and its installer move it along and growth
does. -/
theorem Job.run_moves : Moves (OnMachine (OnDisk R)) here j.run := by
  have hplan : Moves Eq here (planFor j.packages j.stager.layout.specsDir) := fun d => by
    rw [planFor, bind_apply_ok (Files.listNames_apply _ d)]
    rfl
  refine .bind (Work.lift_moves (Files.lift_moves hplan.of_unmoved)) fun actions => ?_
  refine .bind (Work.lift_moves fun m => hgrows _ _ (Stager.reserve_grows _ _ m)) fun r => ?_
  refine .bind (Stager.applyAll_moves hgrows hfetch hinstall r actions) fun outcome => ?_
  split
  split
  · exact .fail _
  · refine .bind (Work.lift_moves fun m => hgrows _ _ (Stager.writeStubs_grows _ m)) fun _ => ?_
    exact .pure _

end Running

end Staging

end GemStaging
