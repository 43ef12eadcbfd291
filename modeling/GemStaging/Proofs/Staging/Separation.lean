import GemStaging.Proofs.Files.Overlay
import GemStaging.Proofs.Staging.Agreement

/-!
Files of other packages. A package takes for its own whatever begins with its full name; where the
descriptor of another package does not, the other one's files make no difference to it: whether
they are there or not, the same is planned, the same archive is installed, and the same files are
copied (`Stager.same_without`).
-/

namespace GemStaging

open Effect Disk GemStaging.Path

variable {here : Location} {l : Layout} {p q : Package}

namespace Package

section Other
variable (hother : ¬ p.fullName.toList <+: q.descriptorName.toList)
include hother

theorem not_prefix_fullName : ¬ p.fullName.toList <+: q.fullName.toList := fun h =>
  hother (h.trans (by simp [descriptorName]))

theorem ne_fullName_of_matchesUnpacked {dir : String} (h : p.matchesUnpacked dir) :
    dir ≠ q.fullName := by
  rintro rfl
  exact not_prefix_fullName hother (List.isPrefixOf_iff_prefix.1 h)

theorem ne_descriptorName_of_matchesDescriptor {name : String} (h : p.matchesDescriptor name) :
    name ≠ q.descriptorName := by
  rintro rfl
  exact hother (matchesDescriptor_iff.1 h).1

theorem archiveName_ne : p.archiveName ≠ q.archiveName := by
  intro h
  have hname : p.fullName = q.fullName := by
    have htext := congrArg String.toList h
    simp only [archiveName, String.toList_append, List.append_left_inj] at htext
    exact String.toList_inj.1 htext
  exact not_prefix_fullName hother (hname ▸ List.prefix_refl _)

end Other

end Package

namespace Layout

/-- The places of the files of a package: its descriptor, its unpacked directory and its archive. -/
def placesOf (l : Layout) (here : Location) (q : Package) : List Location :=
  [goal here (l.specsDir / q.descriptorName), goal here (l.gemsDir / q.fullName),
    goal here (l.buildDir / q.archiveName)]

/-- The place is no file of a package and does not lie below one. -/
def Outside (l : Layout) (here : Location) (q : Package) (loc : Location) : Prop :=
  ∀ file ∈ l.placesOf here q, ¬ file <+: loc

theorem outside_rooted : Rooted (l.Outside here q) := fun _ _ h file hfile hbelow =>
  h file hfile (hbelow.trans (List.prefix_append _ _))

/-- No directory of a layout is one of the files of a package, holds one of them besides the gem
home, or is reached through one of them. -/
structure Clear (l : Layout) (here : Location) (q : Package) : Prop where
  buildDir : ∀ x ∈ stops here l.buildDir, l.Outside here q x
  sharedLib : ∀ x, Around here l.sharedLib x → l.Outside here q x
  binStubs : ∀ x, Around here l.binStubs x → l.Outside here q x
  defaultSpecs : ∀ x, Around here l.defaultSpecs x → l.Outside here q x

section Places
variable {base : Path} {config : LayoutSection} (hlayout : l = .resolve base config)
variable (hq : q.Slashless)
include hlayout hq

theorem placesOf_eq : l.placesOf here q =
    [goal here l.buildDir ++ ["rubygems", "specifications", q.descriptorName],
      goal here l.buildDir ++ ["rubygems", "gems", q.fullName],
      goal here l.buildDir ++ [q.archiveName]] := by
  subst hlayout
  have hdescriptor : IsName q.descriptorName := hq.isName_append (by simp)
  rw [placesOf, goal_div hdescriptor, goal_div hq.isName_fullName, goal_div hq.isName_archiveName]
  have hhome : IsName "rubygems" := by decide
  have hgems : IsName "gems" := by decide
  have hspecs : IsName "specifications" := by decide
  simp only [resolve, goal_div hhome, goal_div hgems, goal_div hspecs]
  simp

theorem outside_append_iff {rest : Location} : l.Outside here q (goal here l.buildDir ++ rest) ↔
    ¬ ["rubygems", "specifications", q.descriptorName] <+: rest ∧
      ¬ ["rubygems", "gems", q.fullName] <+: rest ∧ ¬ [q.archiveName] <+: rest := by
  simp [Outside, placesOf_eq hlayout hq, List.prefix_append_right_inj]

/-- Where the directories of a layout lie apart, the files of every package are out of the way. -/
theorem clear_of_apart (hstraight : Straight here l.buildDir)
    (hshared : Apart here l.buildDir l.sharedLib)
    (hstubs : Apart here l.buildDir l.binStubs) (hspecs : Apart here l.buildDir l.defaultSpecs) :
    l.Clear here q := by
  have hbelow {file : Location} (hfile : file ∈ l.placesOf here q) :
      ∃ name rest, file = goal here l.buildDir ++ name :: rest := by
    rw [placesOf_eq hlayout hq] at hfile
    simp only [List.mem_cons, List.not_mem_nil, or_false] at hfile
    rcases hfile with rfl | rfl | rfl
    · exact ⟨_, _, rfl⟩
    · exact ⟨_, _, rfl⟩
    · exact ⟨_, _, rfl⟩
  have hapart {p : Path} (hp : Apart here l.buildDir p) (x : Location) (hx : Around here p x) :
      l.Outside here q x := by
    intro file hfile hx'
    obtain ⟨name, rest, rfl⟩ := hbelow hfile
    exact hp.symm.not_below hx ((List.prefix_append _ _).trans hx')
  refine ⟨?_, hapart hshared, hapart hstubs, hapart hspecs⟩
  intro x hx file hfile hx'
  obtain ⟨name, rest, rfl⟩ := hbelow hfile
  rw [hstraight x hx ((List.prefix_append _ _).trans hx')] at hx'
  exact not_append_prefix (List.cons_ne_nil _ _) hx'

theorem Outside.append_name {loc : Location} (h : l.Outside here q loc) {name : String}
    (hname : '-' ∉ name.toList) : l.Outside here q (loc ++ [name]) := by
  intro file hfile hbelow
  rcases List.prefix_concat_iff.1 hbelow with rfl | hbelow
  · have hdash : '-' ∈ q.descriptorName.toList ∧ '-' ∈ q.archiveName.toList := by
      simp [Package.descriptorName, Package.archiveName, q.dash_mem_fullName]
    obtain ⟨more, last, hlast, hends⟩ :
        ∃ more last, loc ++ [name] = more ++ [last] ∧ '-' ∈ last.toList := by
      rw [placesOf_eq hlayout hq] at hfile
      simp only [List.mem_cons, List.not_mem_nil, or_false] at hfile
      rcases hfile with hfile | hfile | hfile
      · exact ⟨goal here l.buildDir ++ ["rubygems", "specifications"], _, by simpa using hfile,
          hdash.1⟩
      · exact ⟨goal here l.buildDir ++ ["rubygems", "gems"], _, by simpa using hfile,
          q.dash_mem_fullName⟩
      · exact ⟨goal here l.buildDir, _, hfile, hdash.2⟩
    obtain ⟨-, hsame⟩ := List.append_inj' hlast rfl
    rw [← List.singleton_inj.1 hsame] at hends
    exact hname hends
  · exact h file hfile hbelow

theorem Clear.outside_below (hclear : l.Clear here q) {names : List String}
    (hnames : ∀ name ∈ names, IsName name) (hhome : names.head? = some "rubygems")
    (htwo : names.length ≤ 2)
    {x : Location} (hx : x ∈ stops here (l.buildDir.below names)) : l.Outside here q x := by
  rcases mem_stops_below hnames hx with hx | ⟨⟨rest, rfl⟩, hx⟩
  · exact hclear.buildDir x hx
  · rw [List.prefix_append_right_inj] at hx
    have hlength (name name' : String) : ¬ ["rubygems", name, name'] <+: rest := fun h => by
      have := (h.trans hx).length_le
      simp only [List.length_cons, List.length_nil] at this
      omega
    refine (outside_append_iff hlayout hq).2 ⟨hlength _ _, hlength _ _, fun h => ?_⟩
    obtain ⟨more, rfl⟩ := h.trans hx
    exact q.archiveName_ne_rubygems (by simpa using hhome)

end Places

end Layout

namespace Staging.Stager

section Reaching
variable {s : Stager} {base : Path} {config : LayoutSection}
variable (hlayout : s.layout = .resolve base config)
variable (hq : q.Slashless) (hother : ¬ p.fullName.toList <+: q.descriptorName.toList)
variable (hclear : s.layout.Clear here q)
include hlayout hq hother hclear

/-- Where the files of another package are out of the way, nothing that staging a package reads or
writes is one of them. -/
theorem reaches_outside : Reaches s here p (s.layout.Outside here q) := by
  have hgemsDir := Layout.gemsDir_eq hlayout
  have hspecsDir := Layout.specsDir_eq hlayout
  have houtside (rest : Location) :
      s.layout.Outside here q (goal here s.layout.buildDir ++ rest) ↔ _ :=
    Layout.outside_append_iff hlayout hq
  constructor
  · intro x hx
    rw [hgemsDir] at hx
    exact hclear.outside_below hlayout hq (by decide) rfl (by decide) hx
  · intro x hx
    rw [hspecsDir] at hx
    exact hclear.outside_below hlayout hq (by decide) rfl (by decide) hx
  · intro dir rest hmatch
    rw [hgemsDir, goal_below (by decide), List.append_assoc, houtside]
    have hne := Package.ne_fullName_of_matchesUnpacked hother hmatch
    simp [q.archiveName_ne_rubygems, hne.symm]
  · intro name hmatch
    rw [hspecsDir, goal_below (by decide), List.append_assoc, houtside]
    have hne := Package.ne_descriptorName_of_matchesDescriptor hother hmatch
    simp [q.archiveName_ne_rubygems, hne.symm]
  · exact hclear.sharedLib
  · exact hclear.binStubs
  · exact hclear.defaultSpecs

/-- The archive of a package is no file of another one, and the way to it leads through none. -/
theorem outside_archive (hp : p.Slashless) :
    ∀ x ∈ stops here (s.layout.buildDir / p.archiveName), s.layout.Outside here q x := by
  rw [forall_mem_stops_div hp.isName_archiveName, Layout.outside_append_iff hlayout hq]
  have hne := Package.archiveName_ne hother
  refine ⟨hclear.buildDir, ?_⟩
  simp [hne.symm, (p.archiveName_ne_rubygems).symm]

theorem outside_unfinished (hp : p.Slashless) (hhere : ∀ name ∈ here, IsName name) :
    ∀ x ∈ stops here (unfinished here (s.layout.buildDir / p.archiveName)),
      s.layout.Outside here q x := by
  obtain ⟨parent, hparent⟩ : ∃ parent, (s.layout.buildDir / p.archiveName).parent? = some parent :=
    parent?_div hp.isName_archiveName
  have hstops : ∀ x ∈ stops here parent, s.layout.Outside here q x := fun x hx =>
    outside_archive hlayout hq hother hclear hp x (mem_stops_of_parent? hparent hx)
  have hway : ∀ x ∈ stops here ((Disk.pathOf here).join parent), s.layout.Outside here q x := by
    by_cases habs : parent.isAbsolute
    · rwa [Path.join, if_pos habs]
    · have hrelative : parent.isAbsolute = false := by simpa using habs
      intro x hx
      rcases prefix_or_mem_stops_of_pathOf hhere hrelative hx with hx | hx
      · have hself : here ∈ stops here parent := by
          rw [stops, origin, hrelative]
          exact mem_stopsFrom_self _
        intro file hfile hbelow
        exact hstops here hself file hfile (hbelow.trans hx)
      · exact hstops x hx
  have hunfinished : unfinished here (s.layout.buildDir / p.archiveName) =
      (Disk.pathOf here).join parent / downloadName := by
    rw [unfinished, hparent]
    rfl
  rw [hunfinished, forall_mem_stops_div (by decide)]
  exact ⟨hway, (hway _ (goal_mem_stops here _)).append_name hlayout hq (by decide)⟩

end Reaching

/-- Staging a package comes to the same in two worlds: the same is planned, the same archive is
fetched, the action ends the same way after the same calls, and the same files are in the shared
tree and among the kept descriptors. -/
structure SameStaging (s : Stager) (repository : Repository) (r : Reservation) (here : Location)
    (p : Package) (w v : World) : Prop where
  decision : Action.decide (w.machine.disk.namesAt here s.layout.specsDir) p =
    Action.decide (v.machine.disk.namesAt here s.layout.specsDir) p
  fetched : (repository.fetch p s.layout.buildDir here w.machine).1 =
    (repository.fetch p s.layout.buildDir here v.machine).1
  archive : (repository.fetch p s.layout.buildDir here w.machine).2.disk.at? here
      (s.layout.buildDir / p.archiveName) =
    (repository.fetch p s.layout.buildDir here v.machine).2.disk.at? here
      (s.layout.buildDir / p.archiveName)
  outcome : (s.apply r (.stage p) here w).1 = (s.apply r (.stage p) here v).1
  calls : (s.apply r (.stage p) here w).2.calls = (s.apply r (.stage p) here v).2.calls
  shared : (s.apply r (.stage p) here w).2.machine.disk.under (goal here s.layout.sharedLib) =
    (s.apply r (.stage p) here v).2.machine.disk.under (goal here s.layout.sharedLib)
  kept : (s.apply r (.stage p) here w).2.machine.disk.under (goal here s.layout.defaultSpecs) =
    (s.apply r (.stage p) here v).2.machine.disk.under (goal here s.layout.defaultSpecs)

/-- The files of another package make no difference to a package, as long as its full name does
not begin the name of the other one's descriptor: in worlds that differ in nothing else, staging
the package comes to the same, and the worlds differ in nothing else afterwards. -/
theorem same_without {s : Stager} {base : Path} {config : LayoutSection} {repository : Repository}
    (hlayout : s.layout = .resolve base config) (hfetch : s.fetch = fun _ => repository.fetch)
    (hp : p.Slashless) (hq : q.Slashless) (hother : ¬ p.fullName.toList <+: q.descriptorName.toList)
    (hclear : s.layout.Clear here q)
    (hlocal : ∀ localDir, repository.localDir = some localDir →
      ∀ x ∈ stops here (localDir.join p.repositoryPath), s.layout.Outside here q x)
    (hinstall : ∀ calls archive, Respects (TwinMachines (s.layout.Outside here q)) here
      (s.install calls archive s.layout.gemHome))
    (r : Reservation) {w v : World} (h : TwinWorlds (s.layout.Outside here q) w v)
    (hhere : w.machine.disk.get? here = some .directory) :
    SameStaging s repository r here p w v ∧
      TwinWorlds (s.layout.Outside here q) (s.apply r (.stage p) here w).2
        (s.apply r (.stage p) here v).2 := by
  have hrooted : Rooted (s.layout.Outside here q) := Layout.outside_rooted
  have hreach := reaches_outside hlayout hq hother hclear
  have harchive := outside_archive hlayout hq hother hclear hp
  have hnames : ∀ name ∈ here, IsName name := h.machine.disk.left.isName_of_mem (by rw [hhere]; rfl)
  have hgems := Layout.steps_gemsDir hlayout
  have hfetched : Respects (TwinMachines (s.layout.Outside here q)) here
      (repository.fetch p s.layout.buildDir) :=
    Repository.fetch_respects hrooted hclear.buildDir harchive
      (outside_unfinished hlayout hq hother hclear hp hnames) hlocal
  obtain ⟨hresult, hmachines⟩ := hfetched _ _ h.machine
  obtain ⟨houtcome, hworlds⟩ := apply_respects hrooted hreach hgems hp r
    (fun calls => by rw [hfetch]; exact hfetched) hinstall w v h
  have hagree := hworlds.machine.disk.agree
  refine ⟨?_, hworlds⟩
  constructor
  · rw [Action.decide, h.machine.disk.find?_namesAt hreach.specsDir hreach.descriptors,
      Action.decide]
  · exact hresult
  · exact hmachines.disk.at? harchive
  · exact houtcome
  · exact hworlds.calls
  · exact funext fun rest => hagree _ (hclear.sharedLib _ (.inr (List.prefix_append _ rest)))
  · exact funext fun rest => hagree _ (hclear.defaultSpecs _ (.inr (List.prefix_append _ rest)))

/-- A stager with directories below the root, whose installer has nothing to do. -/
def idleStager (config : LayoutSection) (repository : Repository) : Stager where
  layout := .resolve ⟨"/"⟩ config
  fetch := fun _ => repository.fetch
  install := fun _ _ _ => return ()

def worldOf (disk : Disk) : World where
  machine.disk := disk

/-- The files of another package, whose full name is not that of the package with a platform
behind it, make a difference to the package: on two disks that differ in nothing else, staging
does not come to the same. -/
def Swayed (config : LayoutSection) (repository : Repository) (p q : Package) : Prop :=
  (p.name, p.version) ≠ (q.name, q.version) ∧ ¬ (p.fullName ++ "-").toList <+: q.fullName.toList ∧
    ∃ c d, Agree ((idleStager config repository).layout.Outside [] q) c d ∧
      ∀ r, ¬ SameStaging (idleStager config repository) repository r [] p (worldOf c) (worldOf d)

/-- Disks agree outside the files of a package when one has an entry more, at one of them or below
it. -/
theorem agree_put {d : Disk} {dir : Location} {name : String} {e : Entry}
    (hfile : ∃ file ∈ l.placesOf here q, file <+: dir ++ [name]) :
    Agree (l.Outside here q) (d.put dir name e) d := by
  obtain ⟨file, hmem, hbelow⟩ := hfile
  intro loc hloc
  refine get?_put_of_ne ?_
  rintro rfl
  exact hloc file hmem hbelow

def shortSection : LayoutSection := ⟨⟨"t"⟩, ⟨"l"⟩, ⟨"b"⟩, ⟨"d"⟩⟩

def homeDisk (more : List (Location × String × Entry)) : Disk :=
  diskOf ([([], "t", .directory), (["t"], "rubygems", .directory),
    (["t", "rubygems"], "gems", .directory),
    (["t", "rubygems"], "specifications", .directory)] ++ more)

/-- The local repository is the build directory, where the gem home looks like a part of a
repository. -/
def homeRepository : Repository := { emptyRepository with localDir := some ⟨"/t"⟩ }

/-- A package with its archive, whose library holds a file with the name of another package. -/
def crossDisk : Disk :=
  homeDisk [(["t"], "a-1.gem", .file [] .data), (["t", "rubygems", "gems"], "a-1", .directory),
    (["t", "rubygems", "gems", "a-1"], "lib", .directory),
    (["t", "rubygems", "gems", "a-1", "lib"], "b-1", .file [] .data),
    (["t", "rubygems", "specifications"], "a-1.gemspec", .file [] .data)]

theorem swayed_samples :
    -- a version that begins another one
    Swayed shortSection emptyRepository ⟨"rake", "1.0", false⟩ ⟨"rake", "1.0.1", false⟩ ∧
    -- a name with a slash
    Swayed shortSection emptyRepository ⟨"./a", "1", false⟩ ⟨"a", "1", false⟩ ∧
    -- an archive that is a link
    Swayed shortSection emptyRepository ⟨"a", "1", false⟩ ⟨"b", "1", false⟩ ∧
    -- a build directory that is reached through an unpacked directory
    Swayed { shortSection with buildDir := ⟨"t/rubygems/gems/b-1/../../.."⟩ } emptyRepository
      ⟨"a", "1", false⟩ ⟨"b", "1", false⟩ ∧
    -- a local repository in the build directory
    Swayed shortSection homeRepository ⟨"gems", "b-1", false⟩ ⟨"b", "1", false⟩ ∧
    -- a shared tree that holds the unpacked directories
    Swayed { shortSection with sharedLib := ⟨"t/rubygems/gems"⟩ } emptyRepository
      ⟨"a", "1", false⟩ ⟨"b", "1", false⟩ := by
  refine ⟨?_, ?_, ?_, ?_, ?_, ?_⟩
  · refine ⟨by decide, by decide, (homeDisk []).put ["t", "rubygems", "specifications"]
      "rake-1.0.1.gemspec" (.file [] .data), homeDisk [], agree_put (by decide +kernel),
      fun r h => ?_⟩
    exact absurd h.decision (by decide +kernel)
  · refine ⟨by decide, by decide, (homeDisk []).put ["t"] "a-1.gem" (.file [] .data), homeDisk [],
      agree_put (by decide +kernel), fun r h => ?_⟩
    exact absurd h.fetched (by decide +kernel)
  · let d := homeDisk [(["t"], "a-1.gem", .link ⟨"b-1.gem"⟩)]
    refine ⟨by decide, by decide, d.put ["t"] "b-1.gem" (.file [] .data), d,
      agree_put (by decide +kernel), fun r h => ?_⟩
    exact absurd h.fetched (by decide +kernel)
  · let d := homeDisk [(["t"], "a-1.gem", .file [] .data)]
    refine ⟨by decide, by decide, d.put ["t", "rubygems", "gems"] "b-1" .directory, d,
      agree_put (by decide +kernel), fun r h => ?_⟩
    exact absurd h.fetched (by decide +kernel)
  · refine ⟨by decide, by decide, ((homeDisk []).put ["t", "rubygems", "gems"] "b-1" .directory).put
      ["t", "rubygems", "gems", "b-1"] "gems-b-1.gem" (.file [] .data), homeDisk [],
      (agree_put (by decide +kernel)).trans (agree_put (by decide +kernel)), fun r h => ?_⟩
    exact absurd h.fetched (by decide +kernel)
  · refine ⟨by decide, by decide, crossDisk.put ["t", "rubygems", "gems"] "b-1" .directory,
      crossDisk, agree_put (by decide +kernel), fun r h => ?_⟩
    let s := idleStager { shortSection with sharedLib := ⟨"t/rubygems/gems"⟩ } emptyRepository
    have happly (w : World) : s.apply r (.stage ⟨"a", "1", false⟩) [] w = ((do
        s.obtain ⟨"a", "1", false⟩
        return .staged (← (s.publish ⟨"a", "1", false⟩ : Work Staged))) : Run Outcome) [] w := rfl
    have houtcome := h.outcome
    rw [happly, happly] at houtcome
    exact absurd houtcome (by decide +kernel)

theorem plain_crossDisk : crossDisk.Plain := plain_diskOf (by decide)

/-- The disk with the descriptor, the unpacked directory and the archive of another package. -/
def crossedDisk : Disk :=
  crossDisk.put ["t", "rubygems", "specifications"] "b-1.gemspec" (.file [] .data)
    |>.put ["t", "rubygems", "gems"] "b-1" .directory |>.put ["t"] "b-1.gem" (.file [] .data)

theorem plain_crossedDisk : crossedDisk.Plain := by
  have hfile (target : Path) : Entry.file [] .data ≠ .link target := by simp
  have hdirectory (target : Path) : Entry.directory ≠ .link target := by simp
  exact ((plain_crossDisk.put (by decide) hfile).put (by decide) hdirectory).put (by decide) hfile

theorem same_without_sample :
    let s := idleStager shortSection emptyRepository
    ∃ r m, s.reserve [] [] (worldOf crossedDisk).machine = (.ok r, m) ∧
      SameStaging s emptyRepository r [] ⟨"a", "1", false⟩ (worldOf crossedDisk)
        (worldOf crossDisk) := by
  intro s
  have hreserved : (s.reserve [] [] (worldOf crossedDisk).machine).1.isOk = true := by
    decide +kernel
  have hq : (⟨"b", "1", false⟩ : Package).Slashless := ⟨by decide, by decide⟩
  have hlayout : s.layout = .resolve ⟨"/"⟩ shortSection := rfl
  have hup : ".." ∉ hops s.layout.buildDir ∧ ".." ∉ hops s.layout.sharedLib ∧
      ".." ∉ hops s.layout.binStubs ∧ ".." ∉ hops s.layout.defaultSpecs := by decide +kernel
  obtain ⟨hbuild, hshared, hstubs, hspecs⟩ := hup
  have hclear : s.layout.Clear [] ⟨"b", "1", false⟩ :=
    Layout.clear_of_apart hlayout hq (straight_of_not_up hbuild)
      (apart_of_not_up hbuild hshared (by decide +kernel) (by decide +kernel))
      (apart_of_not_up hbuild hstubs (by decide +kernel) (by decide +kernel))
      (apart_of_not_up hbuild hspecs (by decide +kernel) (by decide +kernel))
  have hagree : Agree (s.layout.Outside [] ⟨"b", "1", false⟩) crossedDisk crossDisk :=
    (agree_put (by decide +kernel)).trans
      ((agree_put (by decide +kernel)).trans (agree_put (by decide +kernel)))
  have htwins : TwinWorlds (s.layout.Outside [] ⟨"b", "1", false⟩) (worldOf crossedDisk)
      (worldOf crossDisk) := ⟨⟨⟨plain_crossedDisk, plain_crossDisk, hagree⟩, rfl, rfl⟩, rfl⟩
  cases hreserve : s.reserve [] [] (worldOf crossedDisk).machine with
  | mk x m =>
    cases x with
    | error f =>
      rw [hreserve] at hreserved
      simp [Except.isOk, Except.toBool] at hreserved
    | ok r =>
      have hfetch : s.fetch = fun _ => emptyRepository.fetch := rfl
      have hsame := same_without (p := ⟨"a", "1", false⟩) hlayout hfetch ⟨by decide, by decide⟩ hq
        (by decide) hclear (by simp [emptyRepository]) (fun _ _ => .pure ()) r htwins (get?_root _)
      exact ⟨r, m, rfl, hsame.1⟩

end Staging.Stager

end GemStaging
