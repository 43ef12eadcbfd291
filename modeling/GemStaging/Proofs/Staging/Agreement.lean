import GemStaging.Proofs.Files.Agreement
import GemStaging.Proofs.Staging.Confinement
import GemStaging.Proofs.Staging.Publishing

/-!
Staging a package does the same on machines whose disks agree where the package is looked for
(`Stager.Reaches`): fetching gives the same archive, publishing copies the same files, and the
disks agree there when the package is staged.
-/

namespace GemStaging

open Effect Disk GemStaging.Path

variable {here : Location} {region : Location → Prop} {α : Type}

/-- Machines whose disks cannot be told apart in a region, with the same log and the same
requests. -/
structure TwinMachines (region : Location → Prop) (m n : Machine) : Prop where
  disk : Twins region m.disk n.disk
  log : m.log = n.log
  requests : m.requests = n.requests

structure TwinWorlds (region : Location → Prop) (w v : World) : Prop where
  machine : TwinMachines region w.machine v.machine
  calls : w.calls = v.calls

theorem Files.lift_respects {e : Files α} (h : Respects (Twins region) here e) :
    Respects (TwinMachines region) here (liftM e : Work α) :=
  .onPart (fun _ _ hm => hm.disk) (fun _ _ _ _ hm hd => ⟨hd, hm.log, hm.requests⟩) h

theorem Work.lift_respects {e : Work α} (h : Respects (TwinMachines region) here e) :
    Respects (TwinWorlds region) here (liftM e : Run α) :=
  .onPart (fun _ _ hw => hw.machine) (fun _ _ _ _ hw hm => ⟨hm, hw.calls⟩) h

theorem Work.note_respects (level : Log.Level) (source message : String)
    (fields : List (String × String)) :
    Respects (TwinMachines region) here (Work.note level source message fields) := by
  intro m n h
  have hlog : m.log ++ [⟨level, source, message, fields⟩] =
      n.log ++ [⟨level, source, message, fields⟩] := congrArg (· ++ _) h.log
  exact ⟨rfl, h.disk, hlog, h.requests⟩

theorem Run.call_respects {c : Call} {act : List Call → Work α}
    (h : ∀ calls, Respects (TwinMachines region) here (act calls)) :
    Respects (TwinWorlds region) here (Run.call c act) := by
  intro w v hw
  have hcalls : w.calls ++ [c] = v.calls ++ [c] := congrArg (· ++ [c]) hw.calls
  refine Alike.bind ⟨rfl, hw.machine, hcalls⟩ ?_
  intro _ w' v' _ _ hw'
  refine .get ?_
  rw [hw'.calls]
  exact Work.lift_respects (h v'.calls) w' v' hw'

namespace Staging

theorem getBytes_respects (t : Http.Transport) (url : String) :
    Respects (TwinMachines region) here (Http.getBytes t url) := by
  refine .bind (Work.note_respects _ _ _ _) fun _ m n h => .get ?_
  rw [h.requests]
  refine Alike.bind (R := TwinMachines region) ⟨rfl, h.disk, h.log, ?_⟩ fun _ m' n' _ _ h' => ?_
  · exact congrArg (· ++ [url]) h.requests
  · exact Respects.ofExcept _ m' n' h'

/-- The path of the file that a download goes into before it takes its place. -/
def unfinished (here : Location) (target : Path) : Path :=
  (Disk.pathOf here).join (target.parent?.getD ⟨"."⟩) / downloadName

variable (hrooted : Rooted region)
include hrooted

theorem keepDownload_respects (bytes : Bytes) {target : Path}
    (htarget : ∀ x ∈ stops here target, region x)
    (hunfinished : ∀ x ∈ stops here (unfinished here target), region x) :
    Respects (Twins region) here (keepDownload bytes target) := by
  intro c d h
  simp only [Alike, keepDownload, bind_apply, place_apply, get_apply]
  rw [show (Disk.pathOf here).join (target.parent?.getD ⟨"."⟩) / downloadName =
    unfinished here target from rfl, ← h.resolve hunfinished, ← h.resolve htarget]
  cases c.resolve here .makeFile (unfinished here target) with
  | error e => exact ⟨rfl, h⟩
  | ok t =>
    by_cases hlarge : Access.maxFile < bytes.length
    · simp only [if_pos hlarge]
      exact ⟨rfl, h⟩
    simp only [if_neg hlarge]
    cases hx : c.resolve here .lookAtLink target with
    | error e => exact ⟨rfl, h⟩
    | ok t =>
      cases t with
      | entry loc => exact ⟨rfl, h⟩
      | free dir name =>
        have hgoal : dir ++ [name] = goal here target := h.left.loc_of_resolve hx
        have hloc : region (dir ++ [name]) := hgoal ▸ htarget _ (goal_mem_stops here target)
        exact ⟨rfl, h.put hrooted hloc (h.left.isName_of_resolve hx) (by simp)⟩

namespace Repository
variable {r : Repository} {p : Package}

theorem download_respects {target : Path} (htarget : ∀ x ∈ stops here target, region x)
    (hunfinished : ∀ x ∈ stops here (unfinished here target), region x) :
    Respects (TwinMachines region) here (r.download p target) := by
  rw [download]
  split
  · exact .fail _
  · refine .bind (Work.note_respects _ _ _ _) fun _ => .bind (getBytes_respects _ _) fun bytes => ?_
    exact .bind (Files.lift_respects (keepDownload_respects hrooted bytes htarget hunfinished))
      fun _ => .pure _

/-- Getting an archive does the same where the disks agree at its place, at the place of a
download, and at its place in the local repository. -/
theorem fetch_respects {dir : Path} (hdir : ∀ x ∈ stops here dir, region x)
    (htarget : ∀ x ∈ stops here (dir / p.archiveName), region x)
    (hunfinished : ∀ x ∈ stops here (unfinished here (dir / p.archiveName)), region x)
    (hlocal : ∀ localDir, r.localDir = some localDir →
      ∀ x ∈ stops here (localDir.join p.repositoryPath), region x) :
    Respects (TwinMachines region) here (r.fetch p dir) := by
  have hdownload : Respects (TwinMachines region) here (r.download p (dir / p.archiveName)) :=
    download_respects hrooted htarget hunfinished
  refine .bind (Files.lift_respects (Access.isFile_respects htarget)) fun there => .ite ?_ ?_
  · exact .bind (Work.note_respects _ _ _ _) fun _ => .pure _
  · refine .bind (Files.lift_respects (Files.ensureDir_respects hrooted hdir)) fun _ => ?_
    split
    · exact hdownload
    · rename_i localDir hlocalDir
      have hcandidate := hlocal localDir hlocalDir
      refine .bind (Files.lift_respects (Access.isFile_respects hcandidate)) fun there => ?_
      refine .ite (.bind (Work.note_respects _ _ _ _) fun _ => ?_) hdownload
      exact .bind (Files.lift_respects (Files.copyFile_respects hrooted hcandidate htarget))
        fun _ => .pure _

end Repository

namespace Stager

theorem copyAllInto_respects {base dir : Path} {names : List String}
    (hnames : ∀ name ∈ names, IsName name)
    (hbase : ∀ x, Around here base x → region x) (hdir : ∀ x, Around here dir x → region x) :
    Respects (Twins region) here (copyAllInto dir (names.map (base / ·))) := by
  induction names with
  | nil => exact .pure 0
  | cons name rest ih =>
    obtain ⟨hname, hrest⟩ := List.forall_mem_cons.1 hnames
    exact .bind (Files.copyInto_respects hrooted hname hbase hdir) fun _ =>
      .bind (ih hrest) fun _ => .pure _

theorem copyLibs_respects {gems dir : Path} {dirs : List String}
    (hdirs : ∀ name ∈ dirs, IsName name)
    (hgems : ∀ name ∈ dirs, ∀ x, Around here (gems / name) x → region x)
    (hdir : ∀ x, Around here dir x → region x) :
    Respects (Twins region) here (copyLibs dir (dirs.map (gems / ·))) := by
  induction dirs with
  | nil => exact .pure 0
  | cons name rest ih =>
    obtain ⟨hname, hrest⟩ := List.forall_mem_cons.1 hdirs
    obtain ⟨hgem, hothers⟩ := List.forall_mem_cons.1 hgems
    have hlib : ∀ x, Around here (gems / name / "lib") x → region x := fun x hx =>
      hgem x (around_of_around_div (by decide) hx)
    intro c d h
    have hlist : c.namesAt here (gems / name / "lib") = d.namesAt here (gems / name / "lib") :=
      h.agree.namesAt h.left (fun x hx => hlib x (.inl hx)) fun _ =>
        hlib _ (.inr (List.prefix_append _ _))
    rw [Alike, List.map_cons, copyLibs, bind_apply_ok (Files.listDir_apply _ c),
      bind_apply_ok (Files.listDir_apply _ d), hlist]
    have hnames : ∀ n ∈ d.namesAt here (gems / name / "lib"), IsName n := fun n hn =>
      h.right.isName_of_mem_namesAt hn
    refine Respects.bind (copyAllInto_respects hrooted hnames hlib hdir) (fun _ => ?_) c d h
    exact .bind (ih hrest hothers) fun _ => .pure _

variable {s : Stager} {p : Package}

/-- What staging a package reads and writes lies in a region: its own files in the gem home,
whatever they are called, and everything around the places that it is copied to. -/
structure Reaches (s : Stager) (here : Location) (p : Package) (region : Location → Prop) :
    Prop where
  gemsDir : ∀ x ∈ stops here s.layout.gemsDir, region x
  specsDir : ∀ x ∈ stops here s.layout.specsDir, region x
  unpacked : ∀ dir rest, p.matchesUnpacked dir → region (goal here s.layout.gemsDir ++ dir :: rest)
  descriptors : ∀ name, p.matchesDescriptor name → region (goal here s.layout.specsDir ++ [name])
  sharedLib : ∀ x, Around here s.layout.sharedLib x → region x
  binStubs : ∀ x, Around here s.layout.binStubs x → region x
  defaultSpecs : ∀ x, Around here s.layout.defaultSpecs x → region x

omit hrooted in
theorem copyBins_respects {entries : List Path}
    (hcopy : ∀ entry ∈ entries, ∀ target, s.binTarget entry = .ok target →
      Respects (Twins region) here (Files.copyTo entry target)) :
    Respects (TwinMachines region) here (s.copyBins entries) := by
  induction entries with
  | nil => exact .pure 0
  | cons entry rest ih =>
    obtain ⟨hentry, hrest⟩ := List.forall_mem_cons.1 hcopy
    refine .bind_of (.ofExcept _) ?_
    intro m target m' n' htarget h
    have copy : Respects (TwinMachines region) here ((do
        let n ← (Files.copyTo entry target : Files Nat)
        return n + (← s.copyBins rest)) : Work Nat) :=
      .bind (Files.lift_respects (hentry target (Prod.mk.inj htarget).1)) fun _ =>
        .bind (ih hrest) fun _ => .pure _
    cases entry.fileName? with
    | some name => exact Respects.bind (Work.note_respects _ _ _ _) (fun _ => copy) m' n' h
    | none => exact copy m' n' h

variable (hreach : Reaches s here p region)
include hreach

omit hrooted in
theorem Reaches.around_unpacked {dir : String} (hdir : IsName dir) (hmatch : p.matchesUnpacked dir)
    {x : Location} (hx : Around here (s.layout.gemsDir / dir) x) : region x := by
  rcases hx with hx | hx
  · exact (forall_mem_stops_div hdir).2 ⟨hreach.gemsDir, hreach.unpacked dir [] hmatch⟩ x hx
  · rw [goal_div hdir] at hx
    obtain ⟨rest, rfl⟩ := hx
    rw [List.append_assoc]
    exact hreach.unpacked dir rest hmatch

theorem copyLib_respects : Respects (Twins region) here (s.copyLib p) := by
  intro c d h
  have hnames : s.unpackedNames here p c = s.unpackedNames here p d :=
    h.filter_namesAt hreach.gemsDir fun name hname => hreach.unpacked name [] hname
  have hmem {name : String} (hname : name ∈ s.unpackedNames here p d) :
      IsName name ∧ p.matchesUnpacked name := by
    obtain ⟨hlisted, hmatch⟩ := List.mem_filter.1 hname
    exact ⟨h.right.isName_of_mem_namesAt hlisted, hmatch⟩
  rw [Alike, copyLib_apply, copyLib_apply, unpackedAt_eq h.left, unpackedAt_eq h.right, hnames]
  exact copyLibs_respects hrooted (fun _ hname => (hmem hname).1)
    (fun _ hname _ hx => hreach.around_unpacked (hmem hname).1 (hmem hname).2 hx)
    hreach.sharedLib c d h

theorem copyBin_respects (hsteps : s.layout.gemsDir.steps ≠ []) (hslash : p.Slashless) :
    Respects (TwinMachines region) here (s.copyBin p) := by
  have hbin : ∀ x, Around here (s.layout.gemsDir / p.fullName / "bin") x → region x := fun x hx =>
    hreach.around_unpacked hslash.isName_fullName p.matchesUnpacked_fullName
      (around_of_around_div (by decide) hx)
  intro m n h
  have hlist : m.disk.namesAt here (s.layout.gemsDir / p.fullName / "bin") =
      n.disk.namesAt here (s.layout.gemsDir / p.fullName / "bin") :=
    h.disk.agree.namesAt h.disk.left (fun x hx => hbin x (.inl hx)) fun _ =>
      hbin _ (.inr (List.prefix_append _ _))
  have hlisted : Alike (TwinMachines region) here
      (liftM (Files.listDir (s.layout.gemsDir / p.fullName / "bin")) : Work _)
      (liftM (Files.listDir (s.layout.gemsDir / p.fullName / "bin")) : Work _) m n := by
    rw [Alike, Files.lift_apply, Files.lift_apply, Files.listDir_apply, Files.listDir_apply, hlist]
    exact ⟨rfl, h⟩
  refine hlisted.bind fun entries m' n' hm _ h' => ?_
  refine copyBins_respects (fun entry hentry target htarget => ?_) m' n' h'
  rw [Files.lift_apply, Files.listDir_apply] at hm
  obtain ⟨rfl, -⟩ := ok_inj hm
  obtain ⟨name, hname, rfl⟩ := List.mem_map.1 hentry
  have hnames : ∀ n ∈ [p.fullName, "bin", name], IsName n := by
    simpa using ⟨hslash.isName_fullName, by decide, h.disk.left.isName_of_mem_namesAt hname⟩
  obtain rfl := Except.ok.inj ((binTarget_below hsteps hnames).symm.trans htarget)
  refine Files.copyTo_respects hrooted ?_ (fun x hx => ?_) fun x hx =>
    hreach.binStubs x (around_of_around_join hnames hx)
  · simp [steps_div (hnames name (by simp))]
  · exact hbin x (around_of_around_div (hnames name (by simp)) hx)

theorem copyDescriptor_respects : Respects (TwinMachines region) here (s.copyDescriptor p) := by
  intro m n h
  have hfind : (m.disk.namesAt here s.layout.specsDir).find? p.matchesDescriptor =
      (n.disk.namesAt here s.layout.specsDir).find? p.matchesDescriptor :=
    h.disk.find?_namesAt hreach.specsDir hreach.descriptors
  rw [Alike, copyDescriptor_apply, copyDescriptor_apply, hfind]
  cases hname : (n.disk.namesAt here s.layout.specsDir).find? p.matchesDescriptor with
  | none => exact ⟨rfl, h⟩
  | some name =>
    have hplain := h.disk.right.isName_of_mem_namesAt (List.mem_of_find?_eq_some hname)
    have hsource : ∀ x ∈ stops here (s.layout.specsDir / name), region x :=
      (forall_mem_stops_div hplain).2
        ⟨hreach.specsDir, hreach.descriptors name (List.find?_some hname)⟩
    have htarget : ∀ x ∈ stops here (s.layout.defaultSpecs / name), region x := fun x hx =>
      hreach.defaultSpecs x (around_of_mem_stops_div hplain hx)
    refine Respects.bind (Work.note_respects _ _ _ _) (fun _ => ?_) m n h
    exact .bind (Files.lift_respects (Files.copyFile_respects hrooted hsource htarget))
      fun _ => .pure _

theorem publish_respects (hsteps : s.layout.gemsDir.steps ≠ []) (hslash : p.Slashless) :
    Respects (TwinMachines region) here (s.publish p) := by
  have rest (n : Nat) : Respects (TwinMachines region) here ((do
      let binFiles ← s.copyBin p
      let descriptor ← s.copyDescriptor p
      return { package := p.fullName, libEntries := n, binFiles, descriptor }) : Work Staged) :=
    .bind (copyBin_respects hrooted hreach hsteps hslash) fun _ =>
      .bind (copyDescriptor_respects hrooted hreach) fun _ => .pure _
  rw [publish]
  split
  · exact .bind (.pure 0) rest
  · exact .bind (Work.note_respects _ _ _ _) fun _ =>
      .bind (Files.lift_respects (copyLib_respects hrooted hreach)) rest

theorem apply_respects (hsteps : s.layout.gemsDir.steps ≠ []) (hslash : p.Slashless)
    (r : Reservation)
    (hfetch : ∀ calls, Respects (TwinMachines region) here (s.fetch calls p s.layout.buildDir))
    (hinstall : ∀ calls archive,
      Respects (TwinMachines region) here (s.install calls archive s.layout.gemHome)) :
    Respects (TwinWorlds region) here (s.apply r (.stage p)) := by
  have hobtain : Respects (TwinWorlds region) here (s.obtain p) :=
    .bind (Run.call_respects hfetch) fun archive =>
      Run.call_respects fun calls => (hinstall calls archive).mapError _
  exact .bind hobtain fun _ =>
    .bind (Work.lift_respects (publish_respects hrooted hreach hsteps hslash)) fun _ => .pure _

end Stager

end Staging

end GemStaging
