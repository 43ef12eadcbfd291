import GemStaging.Proofs.Files.Confinement
import GemStaging.Proofs.Staging.Growth
import GemStaging.Proofs.Staging.Naming
import GemStaging.Proofs.Staging.Steps

/-!
Where staging writes. On a disk without links each step of staging a package writes only around
one of the directories of the layout: fetching around the build directory, copying around the
shared tree, the stub root or the kept descriptors.
-/

namespace GemStaging

open Effect Disk GemStaging.Path

variable {here : Location} {region : Location → Prop}

namespace Layout
variable {l : Layout} {base : Path} {config : LayoutSection} (h : l = .resolve base config)
include h

theorem gemHome_eq : l.gemHome = l.buildDir / "rubygems" := by
  rw [h]
  rfl

theorem gemsDir_eq : l.gemsDir = l.buildDir.below ["rubygems", "gems"] := by
  rw [h]
  rfl

theorem specsDir_eq : l.specsDir = l.buildDir.below ["rubygems", "specifications"] := by
  rw [h]
  rfl

theorem steps_gemsDir : l.gemsDir.steps ≠ [] := by
  have hnames : ∀ name ∈ ["rubygems", "gems"], IsName name := by decide
  simp [gemsDir_eq h, steps_below hnames]

end Layout

namespace Staging

theorem keepDownload_confined (bytes : Bytes) {target : Path}
    (hp : ∀ x ∈ stops here target, region x) :
    Moves (Confined region) here (keepDownload bytes target) := by
  refine keepDownload_moves fun d dir name hfree => ?_
  refine .put (fun hd => hd.isName_of_resolve hfree) (by simp) fun hd => ?_
  have hloc : dir ++ [name] = goal here target := hd.loc_of_resolve hfree
  rw [hloc]
  exact hp _ (goal_mem_stops here target)

namespace Repository

theorem fetch_confined (r : Repository) {p : Package} (hslash : p.Slashless) {dir : Path}
    (hregion : ∀ x, Around here dir x → region x) :
    Moves (OnDisk (Confined region)) here (r.fetch p dir) := by
  have hdir : ∀ x ∈ stops here dir, region x := fun x hx => hregion x (.inl hx)
  have htarget : ∀ x ∈ stops here (dir / p.archiveName), region x := fun x hx =>
    hregion x (around_of_mem_stops_div hslash.isName_archiveName hx)
  exact fetch_moves (Files.ensureDir_confined hdir) (fun _ => Files.copyFile_confined _ htarget)
    fun _ => keepDownload_confined _ htarget

end Repository

section Unpacking
variable {contents : Path → List (String × String)}
variable (hcontents : ∀ archive, ∀ file ∈ contents archive, ∃ names : List String,
  (∀ name ∈ names, IsName name) ∧ (⟨file.1⟩ : Path) = ofNames names)
include hcontents

/-- An installer that unpacks only names below the home moves the disk as writing below the home
does. -/
theorem unpacking_moves {R : Disk → Disk → Prop} [IsPreorder Disk R] {home : Path}
    (hwrite : ∀ names : List String, (∀ name ∈ names, IsName name) →
      ∀ content, Moves R here (Files.writeText (home.join (ofNames names)) content))
    (calls : List Call) (archive : Path) :
    Moves (OnDisk R) here (unpacking contents calls archive home) := by
  refine Files.lift_moves ?_
  have hfiles := hcontents archive
  generalize contents archive = files at hfiles
  induction files with
  | nil => exact .pure ()
  | cons file rest ih =>
    obtain ⟨⟨names, hnames, hfile⟩, hrest⟩ := List.forall_mem_cons.1 hfiles
    have hpath : home / file.1 = home.join (ofNames names) := congrArg home.join hfile
    have hfirst := hwrite names hnames file.2
    rw [← hpath] at hfirst
    exact .bind hfirst fun _ => ih hrest

theorem unpacking_confined (calls : List Call) (archive home : Path) :
    Moves (OnDisk (Confined (Around here home))) here (unpacking contents calls archive home) :=
  unpacking_moves hcontents (fun _ hnames content =>
    Files.writeText_confined (fun _ hx => around_of_mem_stops_join hnames hx) content) calls archive

end Unpacking

namespace Stager

variable {s : Stager} {p : Package}

theorem reserve_confined (s : Stager) (placeholders : List Path) :
    Moves (OnDisk (Confined fun _ => True)) here (s.reserve placeholders) := by
  refine .bind (Files.lift_moves (Files.ensureDir_confined fun _ _ => trivial)) fun _ =>
    .bind ?_ fun _ => .pure _
  induction placeholders with
  | nil => exact .pure []
  | cons q rest ih =>
    refine .bind (Files.lift_moves (.still fun _ => rfl)) fun there => .ite ?_ ?_
    · exact .bind (Work.note_moves _ _ _ _) fun _ => ih
    · refine .bind (Files.lift_moves (Files.ensureParent_confined fun _ _ => trivial)) fun _ => ?_
      refine .bind (Files.lift_moves
        ((Access.openFile_confined .data fun _ _ => trivial).mapError _)) fun _ => ?_
      exact .bind (Work.note_moves _ _ _ _) fun _ => .bind ih fun _ => .pure _

section Copying
variable {R : Disk → Disk → Prop} [IsPreorder Disk R] {base dir : Path} {names : List String}

theorem copyAllInto_moves (hnames : ∀ name ∈ names, IsName name)
    (hcopy : ∀ name, IsName name → Moves R here (Files.copyInto (base / name) dir)) :
    Moves R here (copyAllInto dir (names.map (base / ·))) := by
  induction names with
  | nil => exact .pure 0
  | cons name rest ih =>
    obtain ⟨hname, hrest⟩ := List.forall_mem_cons.1 hnames
    exact .bind (hcopy name hname) fun _ => .bind (ih hrest) fun _ => .pure _

theorem copyAllInto_confined (hregion : ∀ x, Around here dir x → region x)
    (hnames : ∀ name ∈ names, IsName name) :
    Moves (Confined region) here (copyAllInto dir (names.map (base / ·))) :=
  copyAllInto_moves hnames fun _ hname => Files.copyInto_confined hname hregion

variable (hplain : ∀ c d, (c.Plain → R c d) → R c d)
include hplain

theorem copyLibs_moves
    (hcopy : ∀ (base : Path) name, IsName name → Moves R here (Files.copyInto (base / name) dir)) :
    Moves R here (copyLibs dir (names.map (base / ·))) := by
  induction names with
  | nil => exact .pure 0
  | cons name rest ih =>
    refine .bind_of (listDir_unmoved _).of_unmoved ?_
    intro d entries d' hlist
    rw [Files.listDir_apply] at hlist
    obtain ⟨rfl, rfl⟩ := ok_inj hlist
    refine hplain _ _ fun hd => ?_
    refine Moves.bind (copyAllInto_moves (fun n hn => ?_) (hcopy _)) (fun _ => ?_) d
    · exact hd.isName_of_mem_namesAt hn
    · exact .bind ih fun _ => .pure _

theorem copyLib_moves (hcopy : ∀ (base : Path) name, IsName name →
    Moves R here (Files.copyInto (base / name) s.layout.sharedLib)) :
    Moves R here (s.copyLib p) := by
  intro d
  rw [copyLib, bind_apply_ok (Files.listDir_apply _ d), List.filter_map]
  exact copyLibs_moves hplain hcopy d

end Copying

theorem copyLib_confined (hregion : ∀ x, Around here s.layout.sharedLib x → region x) :
    Moves (Confined region) here (s.copyLib p) :=
  copyLib_moves (fun _ _ h hc => h hc hc) fun _ _ hname => Files.copyInto_confined hname hregion

theorem binTarget_below {names : List String} (hgems : s.layout.gemsDir.steps ≠ [])
    (hnames : ∀ name ∈ names, IsName name) :
    s.binTarget (s.layout.gemsDir.below names) = .ok (s.layout.binStubs.join (ofNames names)) := by
  rw [binTarget, relativeTo?_below hnames hgems]

theorem around_of_around_join {p : Path} {names : List String} (h : ∀ name ∈ names, IsName name)
    {x : Location} (hx : Around here (p.join (ofNames names)) x) : Around here p x := by
  rcases hx with hx | hx
  · exact around_of_mem_stops_join h hx
  · rw [goal_join_ofNames h] at hx
    exact .inr ((List.prefix_append _ _).trans hx)

/-- Copying the executables of a package moves the disk as copying each of them to the same names
below the stub root does. -/
theorem copyBin_moves {R : Disk → Disk → Prop} [IsPreorder Disk R]
    (hplain : ∀ c d, (c.Plain → R c d) → R c d) (hslash : p.Slashless)
    (hgems : s.layout.gemsDir.steps ≠ [])
    (hcopy : ∀ name, (∀ n ∈ [p.fullName, "bin", name], IsName n) →
      Moves R here (Files.copyTo (s.layout.gemsDir.below [p.fullName, "bin", name])
        (s.layout.binStubs.join (ofNames [p.fullName, "bin", name])))) :
    Moves (OnDisk R) here (s.copyBin p) := by
  refine .bind_of (Files.lift_moves (listDir_unmoved _).of_unmoved) ?_
  intro m entries m' hlist
  obtain ⟨d, hd, rfl⟩ := Files.lift_eq_ok_iff.1 hlist
  rw [Files.listDir_apply] at hd
  obtain ⟨rfl, rfl⟩ := ok_inj hd
  refine hplain _ _ fun hm => copyBins_moves (R := R) (fun entry hentry target htarget => ?_) _
  obtain ⟨name, hname, rfl⟩ := List.mem_map.1 hentry
  have hnames : ∀ n ∈ [p.fullName, "bin", name], IsName n := by
    simpa using ⟨hslash.isName_fullName, by decide, hm.isName_of_mem_namesAt hname⟩
  obtain rfl := Except.ok.inj ((binTarget_below hgems hnames).symm.trans htarget)
  exact hcopy name hnames

theorem steps_below_ne_nil {base : Path} {names : List String} (hnil : names ≠ [])
    (hnames : ∀ name ∈ names, IsName name) : (base.below names).steps ≠ [] := by
  simp [steps_below hnames, hnil]

theorem copyBin_confined (hslash : p.Slashless) (hgems : s.layout.gemsDir.steps ≠ [])
    (hregion : ∀ x, Around here s.layout.binStubs x → region x) :
    Moves (OnDisk (Confined region)) here (s.copyBin p) := by
  refine copyBin_moves (fun _ _ h hc => h hc hc) hslash hgems fun name hnames => ?_
  exact Files.copyTo_confined (steps_below_ne_nil (by simp) hnames) fun x hx =>
    hregion x (around_of_around_join hnames hx)

theorem copyDescriptor_confined (hregion : ∀ x, Around here s.layout.defaultSpecs x → region x) :
    Moves (OnDisk (Confined region)) here (s.copyDescriptor p) := by
  intro m hm
  rw [disk_copyDescriptor]
  split
  · exact ⟨hm, fun _ _ => rfl⟩
  · rename_i name hfind
    have hname := hm.isName_of_mem_namesAt (List.mem_of_find?_eq_some hfind)
    exact Files.copyFile_confined _ (fun x hx => hregion x (around_of_mem_stops_div hname hx)) _ hm

end Stager

end Staging

end GemStaging
