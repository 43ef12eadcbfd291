import GemStaging.Proofs.Files.Mirroring
import GemStaging.Proofs.Staging.Touching
import Mathlib.Data.Set.Card

/-!
What a package that was staged has in the end. Its executables stand below the stub root under the
names that they have where the package is unpacked, and they were counted; its descriptor is the
first one that matches, it is kept, and a plan that is made afterwards skips the package with it
(`Stager.apply_stubs`).
-/

namespace GemStaging

open Effect Disk GemStaging.Path Disk.Footprint

variable {here : Location}

theorem Tree.shift_below (t : Tree) (place names rest : Location) :
    t.shift (place ++ names) (place ++ rest) = t.shift names rest := by
  simp [shift, List.prefix_append_right_inj]

namespace Disk
variable {d : Disk} {p : Path}

theorem isSome_files_under_iff {loc rest : Location} :
    ((d.under loc).files rest).isSome ↔ (d.file? (loc ++ rest)).isSome := by
  rw [Tree.files, under, file?]
  cases d.get? (loc ++ rest) with
  | none => rfl
  | some e => cases e <;> simp

theorem Plain.ncard_files_treeAt (hd : d.Plain) (h : d.namesAt here p ≠ []) :
    {rest | ((d.treeAt here p).files rest).isSome}.ncard = (d.filesBelow (goal here p)).card := by
  have himage : (goal here p ++ ·) '' {rest | ((d.treeAt here p).files rest).isSome} =
      d.filesBelow (goal here p) := by
    ext k
    simp only [hd.treeAt_eq h, isSome_files_under_iff, Set.mem_image, Set.mem_ofPred_eq,
      Finset.mem_coe, mem_filesBelow]
    constructor
    · rintro ⟨rest, hfile, rfl⟩
      exact ⟨List.prefix_append _ _, hfile⟩
    · rintro ⟨⟨rest, rfl⟩, hfile⟩
      exact ⟨rest, hfile, rfl⟩
  rw [← Set.ncard_coe_finset, ← himage,
    Set.ncard_image_of_injective _ (List.append_right_injective _)]

end Disk

namespace Staging

namespace Stager

variable {s : Stager} {p : Package} {name : String} {k : Nat} {m m₁ m₂ : Machine}

abbrev binDir (s : Stager) (p : Package) : Path := s.layout.gemsDir / p.fullName / "bin"

abbrev stubDir (s : Stager) (p : Package) : Path := s.layout.binStubs.below [p.fullName, "bin"]

abbrev stubPath (s : Stager) (p : Package) (name : String) : Path :=
  s.layout.binStubs.join (ofNames [p.fullName, "bin", name])

theorem binDir_eq (s : Stager) (p : Package) :
    s.binDir p = s.layout.gemsDir.below [p.fullName, "bin"] := rfl

theorem binFiles_eq (s : Stager) (p : Package) (d : Disk) :
    s.binFiles here p d = (d.treeAt here (s.binDir p)).files := rfl

theorem goal_binDir (hslash : p.Slashless) :
    goal here (s.binDir p) = goal here s.layout.gemsDir ++ [p.fullName, "bin"] := by
  rw [binDir_eq, goal_below hslash.isName_bin]

theorem goal_stubDir (hslash : p.Slashless) :
    goal here (s.stubDir p) = goal here s.layout.binStubs ++ [p.fullName, "bin"] :=
  goal_below hslash.isName_bin

theorem goal_stubPath (h : ∀ n ∈ [p.fullName, "bin", name], IsName n) :
    goal here (s.stubPath p name) = goal here (s.stubDir p / name) := by
  rw [goal_join_ofNames h, ← goal_below h]
  rfl

theorem stops_stubPath (h : ∀ n ∈ [p.fullName, "bin", name], IsName n) :
    stops here (s.stubPath p name) = stops here (s.stubDir p / name) :=
  stops_join_ofNames h

section Bins
variable (hslash : p.Slashless) (hgems : s.layout.gemsDir.steps ≠ [])
variable (hbeside : Beside (goal here s.layout.gemsDir) (goal here s.layout.binStubs))
variable (hm : m.disk.Plain) (hhere : m.disk.get? here = some .directory)
include hslash hgems hm

theorem copyBin_of_nil (hnil : m.disk.namesAt here (s.binDir p) = [])
    (h : s.copyBin p here m = (.ok k, m₁)) : k = 0 ∧ m₁.disk = m.disk := by
  have hcopy := sumNames_of_copyBin hslash hgems hm h
  rw [hnil] at hcopy
  obtain ⟨hk, hdisk⟩ := ok_inj hcopy
  exact ⟨hk.symm, hdisk.symm⟩

include hbeside

/-- Each executable is copied out of what was unpacked: that stays as it is. The files that are
copied are counted, and each directory that is made has one that it mirrors. -/
theorem turn_of_copyTo (hname : name ∈ m.disk.namesAt here (s.binDir p)) {c d : Disk} {n : Nat}
    (hc : Files.Untouched here (goal here (s.binDir p)) m.disk c)
    (h : Files.copyTo (s.binDir p / name) (s.stubPath p name) here c = (.ok n, d)) :
    Files.Untouched here (goal here (s.binDir p)) m.disk d ∧
      n = (c.filesBelow (goal here (s.binDir p) ++ [name])).card ∧
      Mirrors (· ∈ stops here (s.stubDir p)) (goal here (s.binDir p)) (goal here (s.stubDir p))
        c d := by
  have hisName := hm.isName_of_mem_namesAt hname
  obtain ⟨hnames, -⟩ := binTarget_of_listed hslash hgems hm hname
  have hsource : goal here (s.binDir p / name) = goal here (s.binDir p) ++ [name] :=
    goal_div hisName
  have htarget : goal here (s.stubPath p name) = goal here (s.stubDir p) ++ [name] := by
    rw [goal_stubPath hnames, goal_div hisName]
  have hsteps : (s.binDir p / name).steps ≠ [] := by simp [steps_div hisName]
  have hdirs : Beside (goal here (s.binDir p)) (goal here (s.stubDir p)) := by
    rw [goal_binDir hslash, goal_stubDir hslash]
    exact hbeside.append _ _
  have hplaces : Beside (goal here (s.binDir p / name)) (goal here (s.stubPath p name)) := by
    rw [hsource, htarget]
    exact hdirs.append _ _
  have hspares : Spares (goal here (s.stubDir p) <+: ·) c d := by
    refine (Files.copyTo_spares hsteps fun rest => ?_).of_eq h
    rw [htarget, List.append_assoc]
    exact List.prefix_append _ _
  have hways : ∀ x ∈ stops here (s.stubPath p name),
      x ∈ stops here (s.stubDir p) ∨ x = goal here (s.stubPath p name) := by
    intro x hx
    rw [stops_stubPath hnames, stops_div hisName, List.mem_append, List.mem_singleton] at hx
    rwa [htarget]
  have hcount := Files.copyTo_tally hplaces hc.plain hc.home h
  have hmirrors := Files.copyTo_mirrors hways hplaces hc.plain hc.home h
  rw [hsource] at hcount
  rw [hsource, htarget] at hmirrors
  exact ⟨hc.step ((Files.copyTo_grows _ _).of_eq h) hspares fun rest => (hdirs.left rest).2, hcount,
    hmirrors.of_below⟩

include hhere

theorem copyBin_tally (h : s.copyBin p here m = (.ok k, m₁)) :
    k = {rest | (s.binFiles here p m.disk rest).isSome}.ncard := by
  by_cases hnil : m.disk.namesAt here (s.binDir p) = []
  · have hnone : {rest | (s.binFiles here p m.disk rest).isSome} = ∅ := by
      ext rest
      rw [binFiles, treeAt_of_namesAt_nil hnil]
      simp [Tree.files, Tree.empty]
    rw [(copyBin_of_nil hslash hgems hm hnil h).1, hnone, Set.ncard_empty]
  · have hdir := hm.directory_of_namesAt hhere hnil _ (goal_mem_stops here _)
    rw [binFiles, hm.ncard_files_treeAt hnil, card_filesBelow hdir, ← hm.namesAt_eq hnil]
    refine Files.sumNames_tally (fun name hname c n d hc hcopy => ?_)
      ⟨hm, hhere, fun _ => .refl _⟩ (sumNames_of_copyBin hslash hgems hm h)
    obtain ⟨hd, hcount, -⟩ := turn_of_copyTo hslash hgems hbeside hm hname hc hcopy
    exact ⟨hd, hcount⟩

theorem copyBin_mirrors (h : s.copyBin p here m = (.ok k, m₁)) :
    Mirrors (· ∈ stops here (s.stubDir p)) (goal here (s.binDir p)) (goal here (s.stubDir p))
      m.disk m₁.disk := by
  refine Files.sumNames_rel (I := Files.Untouched here (goal here (s.binDir p)) m.disk)
    (fun name hname c n d hc hcopy => ?_) ⟨hm, hhere, fun _ => .refl _⟩
    (sumNames_of_copyBin hslash hgems hm h)
  obtain ⟨hd, -, hmirrors⟩ := turn_of_copyTo hslash hgems hbeside hm hname hc hcopy
  exact ⟨hd, hmirrors⟩

end Bins

/-- Where directories may be made below the stub root: on the way to the other directories, and
where the package has executables also on the way of these, and for each directory among them. -/
def StubWay (s : Stager) (here : Location) (p : Package) (d : Disk) (loc : Location) : Prop :=
  loc ∈ stops here s.layout.buildDir ∨ p.specOnly = false ∧ loc ∈ stops here s.layout.sharedLib ∨
    loc ∈ stops here s.layout.defaultSpecs ∨
    d.namesAt here (s.binDir p) ≠ [] ∧ (loc ∈ stops here (s.stubDir p) ∨
      ∃ rest, loc = goal here (s.stubDir p) ++ rest ∧
        d.get? (goal here (s.binDir p) ++ rest) = some .directory)

/-- What a package that was staged has in the end: its executables below the stub root, where beside
them only directories were made, and a descriptor that was the least one that matches. Where the way
to the kept descriptors makes none, it still is, and the package would be skipped with it. -/
structure Stubbed (s : Stager) (here : Location) (p : Package) (before installed after : Disk)
    (x : Staged) : Prop where
  targets : ∀ name ∈ after.namesAt here (s.binDir p),
    s.binTarget (s.binDir p / name) = .ok (s.stubPath p name)
  copied : ∀ rest e, s.binFiles here p after rest = some e →
    after.get? (goal here s.layout.binStubs ++ p.fullName :: "bin" :: rest) = some e
  counted : x.binFiles = {rest | (s.binFiles here p after rest).isSome}.ncard
  others : ∀ rest, (s.binFiles here p after).shift [p.fullName, "bin"] rest = none →
    MadeAt (s.StubWay here p after) (goal here s.layout.binStubs ++ rest) before after
  listed : x.descriptor ∈ after.namesAt here s.layout.specsDir
  matching : p.matchesDescriptor x.descriptor
  least : ∀ name ∈ after.namesAt here s.layout.specsDir, p.matchesDescriptor name →
    x.descriptor ≤ name ∨ goal here s.layout.specsDir ++ [name] ∈ stops here s.layout.defaultSpecs ∧
      installed.get? (goal here s.layout.specsDir ++ [name]) ≠ some .directory
  kept : ∃ content mode,
    after.get? (goal here s.layout.specsDir ++ [x.descriptor]) = some (.file content mode) ∧
      after.get? (goal here s.layout.defaultSpecs ++ [x.descriptor]) = some (.file content mode)
  planned : (∀ name, goal here s.layout.specsDir ++ [name] ∈ stops here s.layout.defaultSpecs →
      installed.get? (goal here s.layout.specsDir ++ [name]) = some .directory) →
    planFor [p] s.layout.specsDir here after = (.ok [.skip p x.descriptor], after)

theorem binDir_below {base : Path} {config : LayoutSection}
    (hlayout : s.layout = .resolve base config) :
    s.binDir p = s.layout.buildDir.below ["rubygems", "gems", p.fullName, "bin"] := by
  rw [binDir_eq, Layout.gemsDir_eq hlayout]
  rfl

theorem isName_binDir (hslash : p.Slashless) :
    ∀ n ∈ ["rubygems", "gems", p.fullName, "bin"], IsName n := by
  simpa using ⟨by decide, by decide, hslash.isName_fullName, by decide⟩

theorem descriptor_keeps (hm : m.disk.Plain) (h : s.copyDescriptor p here m = (.ok name, m₁)) :
    (s.keeping here name).Allows m.disk m₁.disk := by
  obtain ⟨hfind, hcopy⟩ := copyDescriptor_eq_ok h
  exact (keeps_descriptor (hm.isName_of_mem_namesAt (List.mem_of_find?_eq_some hfind))).of_eq hcopy

theorem planFor_of_least {dir : Path} {d : Disk} (hlisted : name ∈ d.namesAt here dir)
    (hmatch : p.matchesDescriptor name)
    (hleast : ∀ other ∈ d.namesAt here dir, p.matchesDescriptor other → name ≤ other) :
    planFor [p] dir here d = (.ok [.skip p name], d) := by
  have hfind : (d.namesAt here dir).find? p.matchesDescriptor = some name :=
    (find?_eq_some_iff_least (namesAt_ascending d here dir)).2 ⟨hlisted, hmatch, hleast⟩
  rw [planFor_apply, plan, List.map_cons, Action.decide, hfind]
  rfl

/-- The descriptor that is copied is the least one that matches. It is a file, and so is its copy;
what else comes to match it is made on the way to the kept descriptors. -/
theorem least_of_copyDescriptor (hm : m.disk.Plain) (hhere : m.disk.get? here = some .directory)
    (hbeside : Beside (goal here s.layout.specsDir) (goal here s.layout.defaultSpecs))
    (h : s.copyDescriptor p here m = (.ok name, m₁)) :
    p.matchesDescriptor name ∧ name ∈ m₁.disk.namesAt here s.layout.specsDir ∧
      (∀ other ∈ m₁.disk.namesAt here s.layout.specsDir, p.matchesDescriptor other →
        name ≤ other ∨ goal here s.layout.specsDir ++ [other] ∈ stops here s.layout.defaultSpecs ∧
          m.disk.get? (goal here s.layout.specsDir ++ [other]) = none) ∧
      ∃ content mode,
        m₁.disk.get? (goal here s.layout.specsDir ++ [name]) = some (.file content mode) ∧
        m₁.disk.get? (goal here s.layout.defaultSpecs ++ [name]) = some (.file content mode) := by
  obtain ⟨hfind, hcopy⟩ := copyDescriptor_eq_ok h
  have hkeeps := descriptor_keeps hm h
  have hgrows : m.disk.Grows m₁.disk := (copyDescriptor_grows s p).of_eq h
  obtain ⟨hmem, hmatch, hleast⟩ :=
    (find?_eq_some_iff_least (namesAt_ascending m.disk here s.layout.specsDir)).1 hfind
  have hname := hm.isName_of_mem_namesAt hmem
  have hmade (rest : Location) : MadeAt (s.keeping here name).makes
      (goal here s.layout.specsDir ++ rest) m.disk m₁.disk := by
    refine hkeeps.madeAt hm (fun hputs => ?_) id
    exact (hbeside.left rest).2 (hputs ▸ List.prefix_append _ _)
  refine ⟨hmatch, hgrows.mem_namesAt hmem, fun other hother hmatch' => ?_, ?_⟩
  · obtain ⟨loc, hl, hsome⟩ := mem_namesAt_iff.1 hother
    obtain rfl : loc = goal here s.layout.specsDir := (hkeeps hm).1.loc_of_resolve hl
    rcases hmade [other] with hsame | ⟨hway, hnone, -⟩
    · refine .inl (hleast other ?_ hmatch')
      rw [hm.namesAt_eq (List.ne_nil_of_mem hmem), mem_names_iff]
      rwa [← hsame]
    · exact .inr ⟨hway, hnone⟩
  · have hne : goal here (s.layout.specsDir / name) ≠ goal here (s.layout.defaultSpecs / name) := by
      rw [goal_div hname, goal_div hname]
      intro heq
      exact (hbeside.append [name] [name]).1 (heq ▸ List.prefix_refl _)
    obtain ⟨content, mode, hfile, hput⟩ := Files.file_of_copyFile hm hhere hne hcopy
    rw [goal_div hname] at hfile hput
    exact ⟨content, mode, (hmade [name]).sparedAt.file_iff.2 hfile, hput⟩

section Ending
variable {base : Path} {config : LayoutSection} (hlayout : s.layout = .resolve base config)
variable (hslash : p.Slashless) (hm : m.disk.Plain)
variable (hhere : m.disk.get? here = some .directory)
variable (hbin : s.copyBin p here m = (.ok k, m₁))
variable (hspec : s.copyDescriptor p here m₁ = (.ok name, m₂))
include hlayout hslash hm hhere hbin hspec

theorem buildDir_stands : ∀ x ∈ stops here s.layout.buildDir, m.disk.get? x = some .directory := by
  by_cases hnil : m.disk.namesAt here (s.binDir p) = []
  · obtain ⟨-, hdisk⟩ := copyBin_of_nil hslash (Layout.steps_gemsDir hlayout) hm hnil hbin
    obtain ⟨hfind, -⟩ := copyDescriptor_eq_ok hspec
    rw [hdisk] at hfind
    have hway :=
      hm.directory_of_namesAt hhere (List.ne_nil_of_mem (List.mem_of_find?_eq_some hfind))
    rw [Layout.specsDir_eq hlayout] at hway
    exact fun x hx => hway x (stops_subset_below (by decide) hx)
  · have hway := hm.directory_of_namesAt hhere hnil
    rw [binDir_below hlayout] at hway
    exact fun x hx => hway x (stops_subset_below (isName_binDir hslash) hx)

theorem binFiles_kept (hunnested : Unnested s.layout here) :
    s.binFiles here p m₂.disk = s.binFiles here p m.disk := by
  have hbins : (s.publishing here p name).Allows m.disk m₁.disk :=
    (copyBin_allows hlayout hslash name).of_eq hbin
  have hkeeps : (s.publishing here p name).Allows m₁.disk m₂.disk :=
    (descriptor_keeps (hbins hm).1 hspec).mono keeping_within
  have hpublished := trans_of (Allows _) hbins hkeeps
  have hgrows : m.disk.Grows m₂.disk :=
    trans_of Grows ((copyBin_grows s p).of_eq hbin) ((copyDescriptor_grows s p).of_eq hspec)
  rw [binFiles_eq, binFiles_eq, binDir_below hlayout]
  refine hm.files_treeAt_eq (hpublished hm).1 hhere hgrows
    (buildDir_stands hlayout hslash hm hhere hbin hspec) (isName_binDir hslash) fun rest => ?_
  exact (publishing_passes hunnested hslash (List.prefix_append _ _) hm hpublished).sparedAt

/-- Where no executable goes below the stub root, directories are made at most that mirror those of
the executables. -/
theorem made_of_copyBin (hunnested : Unnested s.layout here) {rest : Location}
    (hrest : (s.binFiles here p m₂.disk).shift [p.fullName, "bin"] rest = none) :
    MadeAt (s.StubWay here p m₂.disk) (goal here s.layout.binStubs ++ rest) m.disk m₁.disk := by
  have hgems := Layout.steps_gemsDir hlayout
  obtain ⟨⟨-, hbuildStubs, -⟩, -⟩ := unnested_iff.1 hunnested
  have hbeside := gemsDir_beside hlayout hbuildStubs
  by_cases hnil : m.disk.namesAt here (s.binDir p) = []
  · rw [(copyBin_of_nil hslash hgems hm hnil hbin).2]
    exact .refl m.disk
  have hfilled := copyBin_filled hslash hgems hbeside hm hhere hbin
  have hgrows : m₁.disk.Grows m₂.disk := (copyDescriptor_grows s p).of_eq hspec
  have hnone : (s.binFiles here p m.disk).shift (goal here s.layout.binStubs ++ [p.fullName, "bin"])
      (goal here s.layout.binStubs ++ rest) = none := by
    rwa [← binFiles_kept hlayout hslash hm hhere hbin hspec hunnested, Tree.shift_below]
  rcases hfilled.spared _ hnone with hsame | ⟨hbefore, hdir⟩
  · exact .inl hsame
  refine .inr ⟨.inr (.inr (.inr ⟨fun hempty => hnil ?_, ?_⟩)), hbefore, hdir⟩
  · refine List.eq_nil_iff_forall_not_mem.2 fun name hname => ?_
    have hkept := (trans_of Grows ((copyBin_grows s p).of_eq hbin) hgrows).mem_namesAt hname
    rw [hempty] at hkept
    cases hkept
  · have hmirrors := copyBin_mirrors hslash hgems hbeside hm hhere hbin
    refine (hmirrors.made _ hbefore hdir).imp_right ?_
    rintro ⟨more, hmore, hsource⟩
    exact ⟨more, hmore, hgrows.directory hsource⟩

end Ending

section Staging
variable {base : Path} {config : LayoutSection} (hlayout : s.layout = .resolve base config)
variable (hunnested : Unnested s.layout here) (hslash : p.Slashless)
variable {repository : Repository} (hfetch : s.fetch = fun _ => repository.fetch)
variable (hinstall : Enclosed s here) {w w' w₁ : World} {n : Nat} (hw : w.machine.disk.Plain)
include hlayout hunnested hslash hfetch hinstall hw

/-- Until the executables of a package are copied, directories are made at most below the stub root,
on the way to others. -/
theorem made_of_merging (hobtain : s.obtain p here w = (.ok (), w₁))
    (hlib : s.merging p here w₁.machine = (.ok n, m)) (rest : Location) :
    m.disk.Plain ∧ MadeAt (fun loc => loc ∈ stops here s.layout.buildDir ∨
      p.specOnly = false ∧ loc ∈ stops here s.layout.sharedLib)
        (goal here s.layout.binStubs ++ rest) w.machine.disk m.disk := by
  obtain ⟨⟨-, hbuild, -⟩, ⟨hshared, -⟩, -⟩ := unnested_iff.1 hunnested
  have hnotBuild := (hbuild.right rest).1
  have hnotShared := (hshared.right rest).1
  have hfetched : (s.fetching here p).Allows w.machine.disk (s.fetched here p w).2.disk :=
    fetched_allows hslash hfetch
  have hobtained : (ofCopy here s.layout.gemHome).Allows (s.fetched here p w).2.disk
      w₁.machine.disk := by
    have hinstalls := obtain_installs (p := p) (w := w) hinstall
    rwa [hobtain] at hinstalls
  have hmerged : (s.sharing here p).Allows w₁.machine.disk m.disk := merging_allows.of_eq hlib
  have hw₀ := (hfetched hw).1
  have hw₁ := (hobtained hw₀).1
  have hfirst : MadeAt (s.fetching here p).makes (goal here s.layout.binStubs ++ rest)
      w.machine.disk (s.fetched here p w).2.disk :=
    hfetched.madeAt hw (fun hputs => hnotBuild (hputs ▸ List.prefix_append _ _)) id
  have hbelow : goal here s.layout.buildDir <+: goal here s.layout.gemHome :=
    buildDir_above_gemHome hlayout
  have hnext : MadeAt (ofCopy here s.layout.gemHome).makes (goal here s.layout.binStubs ++ rest)
      (s.fetched here p w).2.disk w₁.machine.disk :=
    hobtained.madeAt hw₀ id fun howns => hnotBuild (hbelow.trans howns)
  have hlast : MadeAt (s.sharing here p).makes (goal here s.layout.binStubs ++ rest)
      w₁.machine.disk m.disk := by
    refine hmerged.madeAt hw₁ id ?_
    rintro ⟨-, entry, more, heq⟩
    exact hnotShared (heq ▸ List.prefix_append _ _)
  refine ⟨(hmerged hw₁).1, (hfirst.mono .inl).trans ((hnext.mono fun hmakes => ?_).trans
    (hlast.mono .inr))⟩
  have hstop : goal here s.layout.binStubs ++ rest ∈ stops here s.layout.gemHome := hmakes
  rw [Layout.gemHome_eq hlayout, stops_div (by decide), List.mem_append,
    List.mem_singleton] at hstop
  refine hstop.elim .inl fun heq => absurd ?_ hnotBuild
  rw [heq]
  exact List.prefix_append _ _

/-- A package that was staged has its executables and its descriptor in the end. -/
theorem apply_stubs (hhome : Homebound s here) (hhere : w.machine.disk.get? here = some .directory)
    {r : Reservation} {x : Staged} (h : s.apply r (.stage p) here w = (.ok (.staged x), w')) :
    s.Stubbed here p w.machine.disk (s.obtain p here w).2.machine.disk w'.machine.disk x := by
  obtain ⟨installed, ready, y, hy, hstages⟩ := stages_of_apply h
  obtain rfl := Outcome.staged.inj hy
  obtain ⟨hobtain, hlib, hbin, hspec⟩ := hstages
  rename_i w₁ n k m m₁ m₂ name
  have hgems := Layout.steps_gemsDir hlayout
  have hmerged := made_of_merging hlayout hunnested hslash hfetch hinstall hw hobtain hlib
  have hm := (hmerged []).1
  have hhere₁ := (obtain_stays hfetch hhome).of_eq hobtain hhere
  have hgrows : w₁.machine.disk.Grows m.disk := (merging_moves (copyLib_grows s p)).of_eq hlib
  have hgrows₁ : m.disk.Grows m₁.disk := (copyBin_grows s p).of_eq hbin
  have hgrows₂ : m₁.disk.Grows m₂.disk := (copyDescriptor_grows s p).of_eq hspec
  have hhere' := hgrows.directory hhere₁
  have hm₁ := ((copyBin_confined hslash hgems fun _ hx => hx).of_eq hbin hm).1
  have hkeeps := descriptor_keeps hm₁ hspec
  have hm₂ := (hkeeps hm₁).1
  have hfiles := binFiles_kept hlayout hslash hm hhere' hbin hspec hunnested
  obtain ⟨⟨-, hbuildStubs, hbuildSpecs⟩, -, hstubsSpecs⟩ := unnested_iff.1 hunnested
  have hgemsStubs := gemsDir_beside hlayout hbuildStubs
  have hspecs : Beside (goal here s.layout.specsDir) (goal here s.layout.defaultSpecs) := by
    rw [Layout.specsDir_eq hlayout, goal_below (by decide)]
    exact hbuildSpecs.left _
  obtain ⟨hmatch, hlisted, hleast, hkept⟩ := least_of_copyDescriptor hm₁
    (hgrows₁.directory hhere') hspecs hspec
  -- the descriptor goes to a place beside the stub root
  have hstubs (rest : Location) : MadeAt (s.keeping here name).makes
      (goal here s.layout.binStubs ++ rest) m₁.disk m₂.disk :=
    hkeeps.madeAt hm₁ (fun hputs => (hstubsSpecs.left rest).2 (hputs ▸ List.prefix_append _ _)) id
  have hbefore {loc : Location} (hloc : m₁.disk.get? loc = none) :
      w₁.machine.disk.get? loc ≠ some .directory := by
    intro hdir
    rw [(trans_of Grows hgrows hgrows₁).directory hdir] at hloc
    cases hloc
  rw [hobtain]
  constructor
  · exact fun name hname => (binTarget_of_listed hslash hgems hm₂ hname).2
  · intro rest e he
    rw [hfiles] at he
    have hcopied := get?_of_copyBin hslash hgems hgemsStubs hm hhere' hbin he
    exact ((hstubs _).sparedAt.eq_of_isSome (by rw [hcopied]; rfl)).trans hcopied
  · rw [hfiles]
    exact copyBin_tally hslash hgems hgemsStubs hm hhere' hbin
  · intro rest hrest
    refine .trans (.trans ((hmerged rest).2.mono ?_) ?_) ((hstubs rest).mono ?_)
    · exact fun hway => hway.imp_right .inl
    · exact made_of_copyBin hlayout hslash hm hhere' hbin hspec hunnested hrest
    · exact fun hway => .inr (.inr (.inl hway))
  · exact hlisted
  · exact hmatch
  · exact fun other hother hmatch' => (hleast other hother hmatch').imp_right
      fun ⟨hway, hnone⟩ => ⟨hway, hbefore hnone⟩
  · exact hkept
  · intro hstands
    refine planFor_of_least hlisted hmatch fun other hother hmatch' => ?_
    refine (hleast other hother hmatch').resolve_right ?_
    rintro ⟨hway, hnone⟩
    exact hbefore hnone (hstands other hway)

end Staging

end Stager

/-- The installer that only removes what is at some place. -/
def clearing (loc : Location) : List Call → Path → Path → Work Unit := fun _ _ _ =>
  Effect.modify fun m => { m with disk := m.disk.remove loc }

theorem clearing_allows {loc : Location} (hloc : loc ≠ []) {home : Path}
    (hbelow : goal here home <+: loc) (calls : List Call) (archive : Path) :
    Moves (OnDisk (ofCopy here home).Allows) here (clearing loc calls archive home) := by
  intro m hm
  refine ⟨hm.remove hloc, fun k => ?_⟩
  rw [clearing, modify_apply, get?_remove hloc]
  split
  · rename_i hk
    exact .inr (.inl (hbelow.trans (List.isPrefixOf_iff_prefix.1 hk)))
  · exact .inl rfl

/-- What comes of staging a package once the places are reserved: what the staging says, what a plan
that is made then says, and what stands at some places before and after. -/
def stubbedAt (s : Stager) (here : Location) (w : World) (p : Package) (locs : List Location) :
    Option (Staged × List Action × List (Option Entry × Option Entry)) :=
  match s.reserve [] here w.machine with
  | (.error _, _) => none
  | (.ok r, m) =>
    match s.apply r (.stage p) here { w with machine := m } with
    | (.ok (.staged x), w') =>
      match planFor [p] s.layout.specsDir here w'.machine.disk with
      | (.ok actions, _) =>
        some (x, actions, locs.map fun loc => (m.disk.get? loc, w'.machine.disk.get? loc))
      | _ => none
    | _ => none

theorem staged_of_stubbedAt {s : Stager} {w : World} {p : Package} {locs : List Location}
    {x : Staged} {actions : List Action} {entries : List (Option Entry × Option Entry)}
    (h : stubbedAt s here w p locs = some (x, actions, entries)) :
    ∃ r m w', s.reserve [] here w.machine = (.ok r, m) ∧
      s.apply r (.stage p) here { w with machine := m } = (.ok (.staged x), w') ∧
      (planFor [p] s.layout.specsDir here w'.machine.disk).1 = .ok actions ∧
      locs.map (fun loc => (m.disk.get? loc, w'.machine.disk.get? loc)) = entries := by
  rw [stubbedAt] at h
  split at h
  · cases h
  · rename_i r m hreserve
    split at h
    · rename_i y w' happly
      split at h
      · rename_i planned d hplan
        obtain ⟨rfl, rfl, rfl⟩ : y = x ∧ planned = actions ∧ _ := by simpa using h
        exact ⟨r, m, w', hreserve, happly, by rw [hplan], rfl⟩
      · cases h
    · cases h

/-- A stager whose way to the shared tree goes through the stub root. -/
def straying : Stager := stagerOf ⟨⟨"t"⟩, ⟨"b/x/../../l"⟩, ⟨"b"⟩, ⟨"d"⟩⟩

/-- A world with an archive, where an empty directory is among the executables of its package. -/
def hollow : World where
  machine.disk := diskOf [([], "t", .directory), (["t"], "a-1.gem", .file [] .data),
    (["t"], "rubygems", .directory), (["t", "rubygems"], "gems", .directory),
    (["t", "rubygems", "gems"], "a-1", .directory),
    (["t", "rubygems", "gems", "a-1"], "bin", .directory),
    (["t", "rubygems", "gems", "a-1", "bin"], "s", .directory)]

def specsPlace : Location := ["t", "rubygems", "specifications"]

/-- A stager that works in the directory of the descriptors. Its way to the kept ones goes through
a place of a descriptor, which the installer clears. -/
def forgetful : Stager where
  layout := .resolve ⟨"."⟩
    ⟨⟨"../.."⟩, ⟨"../../../l"⟩, ⟨"../../../b"⟩, ⟨"a-1-.gemspec/../../../../d"⟩⟩
  fetch := fun _ => emptyRepository.fetch
  install := clearing (specsPlace ++ ["a-1-.gemspec"])

def stocked : World where
  machine.disk := diskOf [([], "t", .directory), (["t"], "a-1.gem", .file [] .data),
    (["t"], "rubygems", .directory), (["t", "rubygems"], "specifications", .directory),
    (specsPlace, "a-1.gemspec", .file [] .data)]

theorem slashless_packageA : packageA.Slashless := ⟨by decide, by decide⟩

theorem enclosed_forgetful : Stager.Enclosed forgetful specsPlace :=
  ⟨clearing_allows (by decide) (by decide +kernel)⟩

theorem homebound_forgetful : Stager.Homebound forgetful specsPlace := by
  refine enclosed_forgetful.homebound fun calls archive m hhere => ?_
  have hne : specsPlace ++ ["a-1-.gemspec"] ≠ [] := by decide
  have hget := get?_remove (d := m.disk) hne specsPlace
  exact (hget.trans (if_neg (by decide))).trans hhere

theorem stubbedAt_straying : stubbedAt straying [] hollow packageA
    [["b", "x"], ["b", "a-1", "bin", "s"]] = some (⟨"a-1", 1, 1, "a-1.gemspec"⟩,
      [.skip packageA "a-1.gemspec"], [(none, some .directory), (none, some .directory)]) := by
  decide +kernel

theorem stubbedAt_forgetful : stubbedAt forgetful specsPlace stocked packageA [] =
    some (⟨"a-1", 0, 0, "a-1.gemspec"⟩, [.skip packageA "a-1-.gemspec"], []) := by
  decide +kernel

/-- Below the stub root directories are made that are on the way to the shared tree, or that stand
for an empty one. And a plan that is made in the end may come upon another descriptor, where the way
to the kept ones has made it. -/
theorem stubs_samples :
    (Unnested straying.layout [] ∧ Stager.Homebound straying [] ∧ Stager.Enclosed straying [] ∧
      packageA.Slashless ∧ hollow.machine.disk.Plain ∧
      ∃ r m w' x, straying.reserve [] [] hollow.machine = (.ok r, m) ∧
        straying.apply r (.stage packageA) [] { hollow with machine := m } = (.ok (.staged x), w') ∧
        ∀ loc ∈ [["b", "x"], ["b", "a-1", "bin", "s"]],
          m.disk.get? loc = none ∧ w'.machine.disk.get? loc = some .directory) ∧
    Unnested forgetful.layout specsPlace ∧ Stager.Homebound forgetful specsPlace ∧
      Stager.Enclosed forgetful specsPlace ∧ packageA.Slashless ∧ stocked.machine.disk.Plain ∧
      stocked.machine.disk.get? specsPlace = some .directory ∧
      ∃ r m w' x, forgetful.reserve [] specsPlace stocked.machine = (.ok r, m) ∧
        forgetful.apply r (.stage packageA) specsPlace { stocked with machine := m } =
          (.ok (.staged x), w') ∧
        x.descriptor = "a-1.gemspec" ∧
        (planFor [packageA] forgetful.layout.specsDir specsPlace w'.machine.disk).1 =
          .ok [.skip packageA "a-1-.gemspec"] := by
  constructor
  · obtain ⟨r, m, w', hreserve, happly, -, hentries⟩ := staged_of_stubbedAt stubbedAt_straying
    exact ⟨by decide +kernel, homebound_stagerOf _, enclosed_stagerOf _, slashless_packageA,
      plain_diskOf (by decide), r, m, w', _, hreserve, happly, by simpa using hentries⟩
  · obtain ⟨r, m, w', hreserve, happly, hplanned, -⟩ := staged_of_stubbedAt stubbedAt_forgetful
    exact ⟨by decide +kernel, homebound_forgetful, enclosed_forgetful, slashless_packageA,
      plain_diskOf (by decide), by decide +kernel, r, m, w', _, hreserve, happly, rfl, hplanned⟩

theorem apply_stubs_sample : ∃ r m w' x, sampleStager.reserve [] [] archived.machine = (.ok r, m) ∧
    sampleStager.apply r (.stage packageA) [] { archived with machine := m } =
      (.ok (.staged x), w') ∧
    x = ⟨"a-1", 1, 1, "a-1.gemspec"⟩ ∧
    sampleStager.Stubbed [] packageA m.disk
      (sampleStager.obtain packageA [] { archived with machine := m }).2.machine.disk
      w'.machine.disk x := by
  have hstubbed : stubbedAt sampleStager [] archived packageA [] =
      some (⟨"a-1", 1, 1, "a-1.gemspec"⟩, [.skip packageA "a-1.gemspec"], []) := by
    decide +kernel
  obtain ⟨r, m, w', hreserve, happly, -⟩ := staged_of_stubbedAt hstubbed
  have hlayout : sampleStager.layout = .resolve ⟨"/"⟩ _ := rfl
  have hfetch : sampleStager.fetch = fun _ => emptyRepository.fetch := rfl
  have hplain : m.disk.Plain :=
    ((Stager.reserve_confined sampleStager []).of_eq hreserve plain_archived).1
  exact ⟨r, m, w', _, hreserve, happly, rfl, Stager.apply_stubs hlayout (by decide +kernel)
    slashless_packageA hfetch (enclosed_stagerOf _) hplain (homebound_stagerOf _) (get?_root _)
    happly⟩

end Staging

end GemStaging
