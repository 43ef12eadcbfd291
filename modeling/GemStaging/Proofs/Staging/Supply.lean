import GemStaging.Proofs.Files.Sparing
import GemStaging.Proofs.Staging.Merging
import GemStaging.Proofs.Staging.Phases

/-!
What is copied before the descriptor of a package: every file that its libraries and its
executables held right after it was installed (`Stager.supplied`). Where a path goes through places
among these files, copying makes directories there at most, so the files themselves stay what they
were when the package was installed.
-/

namespace GemStaging

open Effect Disk GemStaging.Path

variable {here : Location}

namespace Disk
variable {c d : Disk} {p : Path}

theorem Plain.treeAt_eq_some_iff (hd : d.Plain) {rest : Location} {e : Entry} :
    d.treeAt here p rest = some e ↔
      d.namesAt here p ≠ [] ∧ d.get? (goal here p ++ rest) = some e := by
  by_cases hnil : d.namesAt here p = []
  · rw [treeAt_of_namesAt_nil hnil]
    simp [hnil, Tree.empty]
  · rw [hd.treeAt_eq hnil, under]
    simp [hnil]

theorem Plain.files_treeAt (hd : d.Plain) (hhere : d.get? here = some .directory) :
    (d.treeAt here p).files = (d.under (goal here p)).files.pick (d.namesAt here p) := by
  by_cases hnil : d.namesAt here p = []
  · rw [treeAt_of_namesAt_nil hnil, hnil]
    funext rest
    cases rest <;> rfl
  · have hdir := hd.directory_of_namesAt hhere hnil _ (goal_mem_stops here p)
    rw [hd.treeAt_eq hnil, hd.namesAt_eq hnil, Files.pick_names hdir]

/-- While the way to some directory stands and its files are spared, it holds the same files. -/
theorem Plain.files_treeAt_eq {base : Path} {names : List String} (hc : c.Plain) (hd : d.Plain)
    (hhere : c.get? here = some .directory) (hgrows : c.Grows d)
    (hbase : ∀ x ∈ stops here base, c.get? x = some .directory)
    (hnames : ∀ name ∈ names, IsName name)
    (hspared : ∀ rest, SparedAt (goal here base ++ rest) c d) :
    (d.treeAt here (base.below names)).files = (c.treeAt here (base.below names)).files := by
  funext rest
  refine Option.ext fun e => ?_
  rw [Tree.files_eq_some_iff, Tree.files_eq_some_iff]
  refine and_congr_left ?_
  rintro ⟨content, mode, rfl⟩
  rw [hd.treeAt_eq_some_iff, hc.treeAt_eq_some_iff, goal_below hnames, List.append_assoc,
    (hspared _).file_iff]
  refine and_congr_left fun hfile => ?_
  constructor
  · intro hsome
    have hdirs := hd.directory_of_namesAt (hgrows.directory hhere) hsome
    have hrest : rest ≠ [] := by
      rintro rfl
      have hgoal := hdirs _ (goal_mem_stops here _)
      rw [goal_below hnames, (hspared _).file_iff.2 (by simpa using hfile)] at hgoal
      cases hgoal
    -- the file stands below the directory, so the whole way to it was there before
    have hbefore : ∀ x ∈ stops here (base.below names), c.get? x = d.get? x := by
      intro x hx
      rw [hdirs x hx]
      rcases mem_stops_below hnames hx with hx | ⟨-, more, hmore⟩
      · exact hbase x hx
      · have hmore' : more ++ rest ≠ [] := by simp [hrest]
        refine get?_of_below hmore' ?_
        rw [← List.append_assoc, hmore, List.append_assoc, hfile]
        rfl
    obtain ⟨first, hfirst⟩ := List.exists_mem_of_ne_nil _ hsome
    obtain ⟨loc, hl, -⟩ := mem_namesAt_iff.1 hfirst
    rw [← hc.resolve_congr hbefore] at hl
    have hloc : loc = goal here base ++ names := goal_below hnames ▸ hc.loc_of_resolve hl
    obtain ⟨name, more, rfl⟩ := List.exists_cons_of_ne_nil hrest
    refine List.ne_nil_of_mem (a := name) (mem_namesAt_iff.2 ⟨loc, hl, ?_⟩)
    have hsome' : (c.get? (loc ++ [name] ++ more)).isSome := by
      rw [hloc, List.append_assoc, List.append_assoc, List.singleton_append, hfile]
      rfl
    exact isSome_upward (List.prefix_append _ _) hsome'
  · intro hsome
    obtain ⟨name, hname⟩ := List.exists_mem_of_ne_nil _ hsome
    exact List.ne_nil_of_mem (hgrows.mem_namesAt hname)

end Disk

namespace Tree

theorem shift_atop (place : Location) (new old : Tree) :
    (new.atop old).shift place = (new.shift place).atop (old.shift place) := by
  funext loc
  rw [atop]
  by_cases h : place <+: loc
  · simp [shift, h, atop]
  · simp [shift_of_not_below h]

theorem merge_eq_atop (old : Tree) (news : List Tree) :
    old.merge news = (Tree.empty.merge news).atop old := by
  induction news using List.reverseRecOn with
  | nil => rfl
  | append_singleton news new ih =>
    rw [merge_append, merge_append, ih]
    exact funext fun _ => (Option.or_assoc ..).symm

theorem merge_cons (new : Tree) (news : List Tree) :
    Tree.empty.merge (new :: news) = (Tree.empty.merge news).atop new := by
  have hnew : new.atop .empty = new := funext fun _ => Option.or_none
  rw [merge, List.foldl_cons, hnew]
  exact merge_eq_atop new news

end Tree

namespace Staging

theorem unnested_iff {l : Layout} : Unnested l here ↔
    (Beside (goal here l.buildDir) (goal here l.sharedLib) ∧
      Beside (goal here l.buildDir) (goal here l.binStubs) ∧
      Beside (goal here l.buildDir) (goal here l.defaultSpecs)) ∧
    (Beside (goal here l.sharedLib) (goal here l.binStubs) ∧
      Beside (goal here l.sharedLib) (goal here l.defaultSpecs)) ∧
    Beside (goal here l.binStubs) (goal here l.defaultSpecs) := by
  simp [Unnested, Beside]

namespace Stager

section Copying
variable {gems dir : Path} {snapshot c d : Disk} {n : Nat}

theorem copyAllInto_chain {base : Path} {names : List String}
    (h : copyAllInto dir (names.map (base / ·)) here c = (.ok n, d)) :
    Chain (fun name c d => ∃ q, Files.copyInto (base / name) dir here c = (.ok q, d)) names c
      d := by
  induction names generalizing c n with
  | nil => exact (Prod.mk.inj h).2
  | cons name rest ih =>
    obtain ⟨q, b, hcopy, h⟩ := bind_eq_ok_iff.1 h
    obtain ⟨more, b', hmore, h⟩ := bind_eq_ok_iff.1 h
    obtain ⟨-, rfl⟩ := Prod.mk.inj h
    exact ⟨b, ⟨q, hcopy⟩, ih hmore⟩

theorem copyAllInto_filled {base : Path} (hbeside : Beside (goal here base) (goal here dir))
    (hc : c.Plain) (hhere : c.get? here = some .directory)
    (h : copyAllInto dir ((c.namesAt here base).map (base / ·)) here c = (.ok n, d)) :
    d.Plain ∧ d.get? here = some .directory ∧
      Filled ((c.treeAt here base).files.shift (goal here dir)) c d := by
  rw [hc.files_treeAt hhere]
  refine Filled.of_chain hbeside (fun name hmem => ?_) (copyAllInto_chain h) hc hhere rfl
  have hname := hc.isName_of_mem_namesAt hmem
  refine Files.copyTo_fills hbeside (by simp [steps_div hname]) (goal_div hname) (goal_div hname) ?_
  rintro b b' ⟨q, hcopy⟩
  obtain ⟨name', n, hname', -, hcopy⟩ := Files.copyInto_eq_ok hcopy
  rw [fileName?_div hname] at hname'
  obtain rfl := Option.some.inj hname'
  exact ⟨n, hcopy⟩

/-- Copying the libraries of some packages puts the files there that they held when the copying
began; of two files for one place the later one stays. -/
theorem copyLibs_filled {dirs : List String} (hbeside : Beside (goal here gems) (goal here dir))
    (hdirs : ∀ name ∈ dirs, IsName name) (hsnapshot : snapshot.Plain)
    (hhere : snapshot.get? here = some .directory)
    (hfixed : dirs ≠ [] → ∀ x ∈ stops here gems, snapshot.get? x = some .directory)
    (hgrows : snapshot.Grows c) (hspared : ∀ rest, SparedAt (goal here gems ++ rest) snapshot c)
    (hc : c.Plain) (h : copyLibs dir (dirs.map (gems / ·)) here c = (.ok n, d)) :
    Filled ((Tree.empty.merge (dirs.map fun name =>
      (snapshot.treeAt here (gems / name / "lib")).files)).shift (goal here dir)) c d := by
  induction dirs generalizing c n with
  | nil =>
    obtain ⟨-, rfl⟩ := ok_inj h
    refine ⟨fun loc e he => ?_, fun loc _ => .refl _⟩
    rw [Tree.shift] at he
    split at he <;> cases he
  | cons name rest ih =>
    obtain ⟨hname, hrest⟩ := List.forall_mem_cons.1 hdirs
    obtain ⟨k, more, c₂, hcopy, hmore, -⟩ := copyLibs_cons_eq_ok h
    have hlib : ∀ n ∈ [name, "lib"], IsName n := by simpa using ⟨hname, by decide⟩
    have hbelow : gems / name / "lib" = gems.below [name, "lib"] := rfl
    have hbesideLib : Beside (goal here (gems / name / "lib")) (goal here dir) := by
      rw [hbelow, goal_below hlib]
      exact hbeside.left _
    obtain ⟨hc₂, -, hfirst⟩ :=
      copyAllInto_filled hbesideLib hc (hgrows.directory hhere) hcopy
    have hg : c.Grows c₂ := (copyAllInto_grows _ _).of_eq hcopy
    -- the shared tree lies beside the packages, so the next ones still hold what they held
    have hspared₂ (rest : Location) : SparedAt (goal here gems ++ rest) snapshot c₂ := by
      have hfree := (hbeside.left rest).2
      exact (hspared rest).trans (hfirst.spared _ (Tree.shift_of_not_below hfree _))
    have hway := hfixed (List.cons_ne_nil _ _)
    have hsame := hsnapshot.files_treeAt_eq hc hhere hgrows hway hlib hspared
    have hothers := ih hrest (fun _ => hway) (hgrows.trans hg) hspared₂ hc₂ hmore
    rw [hbelow, hsame] at hfirst
    rw [List.map_cons, Tree.merge_cons, Tree.shift_atop]
    exact hfirst.trans hothers

end Copying

variable {s : Stager} {p : Package} {m m₁ m₂ : Machine} {n k : Nat}

theorem copyBins_cons_eq_ok {entry : Path} {rest : List Path}
    (h : s.copyBins (entry :: rest) here m = (.ok k, m₂)) :
    ∃ target n m₁ more, s.binTarget entry = .ok target ∧
      Files.copyTo entry target here m.disk = (.ok n, m₁.disk) ∧
      s.copyBins rest here m₁ = (.ok more, m₂) ∧ k = n + more := by
  obtain ⟨target, m₀, hq, h⟩ := bind_eq_ok_iff.1 h
  obtain ⟨htarget, rfl⟩ : s.binTarget entry = .ok target ∧ m = m₀ := Prod.mk.inj hq
  -- with or without the line in the log, the entry is copied from the same disk
  obtain ⟨m', hdisk, h⟩ : ∃ m', m'.disk = m.disk ∧ ((do
      let n ← (Files.copyTo entry target : Files Nat)
      return n + (← s.copyBins rest)) : Work Nat) here m' = (.ok k, m₂) := by
    cases hname : entry.fileName? with
    | none => exact ⟨m, rfl, by simpa only [hname] using h⟩
    | some name =>
      simp only [hname] at h
      obtain ⟨⟨⟩, m', hnote, h⟩ := bind_eq_ok_iff.1 h
      exact ⟨m', (Work.note_eq_ok hnote).1, h⟩
  obtain ⟨n, m₁, hcopy, h⟩ := bind_eq_ok_iff.1 h
  obtain ⟨d, hd, rfl⟩ := Files.lift_eq_ok_iff.1 hcopy
  obtain ⟨more, m₃, hmore, h⟩ := bind_eq_ok_iff.1 h
  obtain ⟨rfl, rfl⟩ := ok_inj h
  exact ⟨target, n, _, more, htarget, hdisk ▸ hd, hmore, rfl⟩

theorem sumNames_of_copyBins {base : Path} {target : String → Path} {names : List String}
    (htarget : ∀ name ∈ names, s.binTarget (base / name) = .ok (target name))
    (h : s.copyBins (names.map (base / ·)) here m = (.ok k, m₁)) :
    Files.sumNames (fun name => Files.copyTo (base / name) (target name)) names here m.disk =
      (.ok k, m₁.disk) := by
  induction names generalizing m k with
  | nil =>
    obtain ⟨rfl, rfl⟩ := ok_inj h
    rfl
  | cons name rest ih =>
    obtain ⟨hname, hrest⟩ := List.forall_mem_cons.1 htarget
    obtain ⟨q, n, m₀, more, hq, hcopy, hmore, rfl⟩ := copyBins_cons_eq_ok h
    obtain rfl := Except.ok.inj (hname.symm.trans hq)
    rw [Files.sumNames, bind_apply_ok hcopy, bind_apply_ok (ih hrest hmore)]
    rfl

/-- The library files of a package; of two files for one place the later one counts. -/
def libFiles (s : Stager) (here : Location) (p : Package) (d : Disk) : Tree :=
  Tree.empty.merge ((s.libTrees here p d).map Tree.files)

def binFiles (s : Stager) (here : Location) (p : Package) (d : Disk) : Tree :=
  (d.treeAt here (s.layout.gemsDir / p.fullName / "bin")).files

theorem copyLib_filled {c d : Disk} (hbeside : Beside (goal here s.layout.gemsDir)
      (goal here s.layout.sharedLib))
    (hc : c.Plain) (hhere : c.get? here = some .directory) (h : s.copyLib p here c = (.ok n, d)) :
    Filled ((s.libFiles here p c).shift (goal here s.layout.sharedLib)) c d := by
  rw [copyLib_apply, unpackedAt_eq hc] at h
  simp only [libFiles, libTrees, List.map_map, Function.comp_def]
  refine copyLibs_filled hbeside ?_ hc hhere (fun hdirs => ?_) (.refl c) (fun _ => .refl c) hc h
  · exact fun name hname => hc.isName_of_mem_namesAt (List.mem_of_mem_filter hname)
  · refine hc.directory_of_namesAt hhere fun hempty => hdirs ?_
    rw [unpackedNames, hempty]
    rfl

theorem binTarget_of_listed (hslash : p.Slashless) (hgems : s.layout.gemsDir.steps ≠ []) {d : Disk}
    (hd : d.Plain) {name : String}
    (hname : name ∈ d.namesAt here (s.layout.gemsDir / p.fullName / "bin")) :
    (∀ n ∈ [p.fullName, "bin", name], IsName n) ∧
      s.binTarget (s.layout.gemsDir / p.fullName / "bin" / name) =
        .ok (s.layout.binStubs.join (ofNames [p.fullName, "bin", name])) := by
  have hnames : ∀ n ∈ [p.fullName, "bin", name], IsName n := by
    simpa using ⟨hslash.isName_fullName, by decide, hd.isName_of_mem_namesAt hname⟩
  have hbelow : s.layout.gemsDir / p.fullName / "bin" / name =
      s.layout.gemsDir.below [p.fullName, "bin", name] := rfl
  rw [hbelow]
  exact ⟨hnames, binTarget_below hgems hnames⟩

theorem sumNames_of_copyBin (hslash : p.Slashless) (hgems : s.layout.gemsDir.steps ≠ [])
    (hm : m.disk.Plain) (h : s.copyBin p here m = (.ok k, m₁)) :
    Files.sumNames (fun name => Files.copyTo (s.layout.gemsDir / p.fullName / "bin" / name)
        (s.layout.binStubs.join (ofNames [p.fullName, "bin", name])))
      (m.disk.namesAt here (s.layout.gemsDir / p.fullName / "bin")) here m.disk =
        (.ok k, m₁.disk) := by
  rw [copyBin] at h
  obtain ⟨entries, m₀, hlist, h⟩ := bind_eq_ok_iff.1 h
  obtain ⟨d, hd, rfl⟩ := Files.lift_eq_ok_iff.1 hlist
  rw [Files.listDir_apply] at hd
  obtain ⟨rfl, rfl⟩ := ok_inj hd
  exact sumNames_of_copyBins (fun name hname => (binTarget_of_listed hslash hgems hm hname).2) h

theorem copyBin_filled (hslash : p.Slashless) (hgems : s.layout.gemsDir.steps ≠ [])
    (hbeside : Beside (goal here s.layout.gemsDir) (goal here s.layout.binStubs))
    (hm : m.disk.Plain) (hhere : m.disk.get? here = some .directory)
    (h : s.copyBin p here m = (.ok k, m₁)) :
    Filled ((s.binFiles here p m.disk).shift (goal here s.layout.binStubs ++ [p.fullName, "bin"]))
      m.disk m₁.disk := by
  have hbin := hslash.isName_bin
  have hbelow : s.layout.gemsDir / p.fullName / "bin" =
      s.layout.gemsDir.below [p.fullName, "bin"] := rfl
  have hbesideBin := hbeside.append [p.fullName, "bin"] [p.fullName, "bin"]
  rw [← goal_below hbin, ← hbelow] at hbesideBin
  have hchain := Files.sumNames_chain (sumNames_of_copyBin hslash hgems hm h)
  rw [binFiles, hm.files_treeAt hhere]
  refine (Filled.of_chain hbesideBin (fun name hmem => ?_) hchain hm hhere rfl).2.2
  have hname := hm.isName_of_mem_namesAt hmem
  have hsteps : (s.layout.gemsDir / p.fullName / "bin" / name).steps ≠ [] := by
    simp [steps_div hname]
  refine Files.copyTo_fills hbesideBin hsteps (goal_div hname) ?_ fun _ _ h => h
  rw [goal_join_ofNames (binTarget_of_listed hslash hgems hm hmem).1, List.append_assoc]
  rfl

theorem get?_of_copyBin (hslash : p.Slashless) (hgems : s.layout.gemsDir.steps ≠ [])
    (hbeside : Beside (goal here s.layout.gemsDir) (goal here s.layout.binStubs))
    (hm : m.disk.Plain) (hhere : m.disk.get? here = some .directory)
    (h : s.copyBin p here m = (.ok k, m₁)) {rest : Location} {e : Entry}
    (he : s.binFiles here p m.disk rest = some e) :
    m₁.disk.get? (goal here s.layout.binStubs ++ p.fullName :: "bin" :: rest) = some e := by
  have hcopied := (copyBin_filled hslash hgems hbeside hm hhere h).filled
    (goal here s.layout.binStubs ++ [p.fullName, "bin"] ++ rest) e (by rwa [Tree.shift_append])
  rwa [List.append_assoc] at hcopied

section Sparing
variable {region : Location → Prop}

theorem copyLib_spares (hregion : ∀ rest, region (goal here s.layout.sharedLib ++ rest)) :
    Moves (Spares region) here (s.copyLib p) :=
  copyLib_moves (fun _ _ h hc => h hc hc) fun _ _ hname => Files.copyInto_spares hname hregion

theorem copyBin_spares (hslash : p.Slashless) (hgems : s.layout.gemsDir.steps ≠ [])
    (hregion : ∀ rest, region (goal here s.layout.binStubs ++ rest)) :
    Moves (OnDisk (Spares region)) here (s.copyBin p) := by
  refine copyBin_moves (fun _ _ h hc => h hc hc) hslash hgems fun name hnames => ?_
  refine Files.copyTo_spares (steps_below_ne_nil (by simp) hnames) fun rest => ?_
  rw [goal_join_ofNames hnames, List.append_assoc]
  exact hregion _

end Sparing

theorem merging_moves {R : Disk → Disk → Prop} [IsPreorder Disk R]
    (h : Moves R here (s.copyLib p)) : Moves (OnDisk R) here (s.merging p) :=
  .ite (.pure 0) (.bind (Work.note_moves _ _ _ _) fun _ => Files.lift_moves h)

theorem merging_eq_ok (h : s.merging p here m = (.ok n, m₁)) :
    if p.specOnly then m₁.disk = m.disk else s.copyLib p here m.disk = (.ok n, m₁.disk) := by
  rw [merging] at h
  split at h
  · rename_i hspec
    rw [if_pos hspec, (ok_inj h).2]
  · rename_i hspec
    obtain ⟨⟨⟩, m', hnote, h⟩ := bind_eq_ok_iff.1 h
    obtain ⟨d, hd, rfl⟩ := Files.lift_eq_ok_iff.1 h
    rw [if_neg hspec, ← (Work.note_eq_ok hnote).1, hd]

/-- The library files and the executables that the package had on the disk `installed` are in the
shared tree and below the stub root. -/
structure Supplied (s : Stager) (here : Location) (p : Package) (installed d : Disk) : Prop where
  libraries : p.specOnly = false → ∀ rest e, s.libFiles here p installed rest = some e →
    d.get? (goal here s.layout.sharedLib ++ rest) = some e
  executables : ∀ rest e, s.binFiles here p installed rest = some e →
    d.get? (goal here s.layout.binStubs ++ p.fullName :: "bin" :: rest) = some e

theorem binFiles_of_spared {c d : Disk} (hslash : p.Slashless) (hc : c.Plain) (hd : d.Plain)
    (hhere : c.get? here = some .directory) (hgrows : c.Grows d)
    (hspared : ∀ rest, SparedAt (goal here s.layout.gemsDir ++ rest) c d) {rest : Location}
    {e : Entry} (h : s.binFiles here p c rest = some e) : s.binFiles here p d rest = some e := by
  have hnames := hslash.isName_bin
  have hbelow : s.layout.gemsDir / p.fullName / "bin" =
      s.layout.gemsDir.below [p.fullName, "bin"] := rfl
  rw [binFiles, hbelow] at h ⊢
  obtain ⟨hsome, -⟩ := hc.treeAt_eq_some_iff.1 (Tree.files_eq_some_iff.1 h).1
  have hdirs := hc.directory_of_namesAt hhere hsome
  have hway : ∀ x ∈ stops here s.layout.gemsDir, c.get? x = some .directory := fun x hx =>
    hdirs x (stops_subset_below hnames hx)
  rw [← h, hc.files_treeAt_eq hd hhere hgrows hway hnames hspared]

variable {base : Path} {config : LayoutSection} (hlayout : s.layout = .resolve base config)
include hlayout

theorem gemsDir_beside {place : Location} (h : Beside (goal here s.layout.buildDir) place) :
    Beside (goal here s.layout.gemsDir) place := by
  rw [Layout.gemsDir_eq hlayout, goal_below (by decide)]
  exact h.left _

/-- Once the libraries and the executables of a package were copied, all their files are there. -/
theorem supplied (hunnested : Unnested s.layout here) (hslash : p.Slashless) (hm : m.disk.Plain)
    (hhere : m.disk.get? here = some .directory) (hlib : s.merging p here m = (.ok n, m₁))
    (hbin : s.copyBin p here m₁ = (.ok k, m₂)) : s.Supplied here p m.disk m₂.disk := by
  have hgems := Layout.steps_gemsDir hlayout
  obtain ⟨⟨hbuildShared, hbuildStubs, -⟩, ⟨hsharedStubs, -⟩, -⟩ := unnested_iff.1 hunnested
  have hgemsShared := gemsDir_beside hlayout hbuildShared
  have hgemsStubs := gemsDir_beside hlayout hbuildStubs
  obtain ⟨hm₁, hspared⟩ := (merging_moves (copyLib_spares fun rest =>
    List.prefix_append (goal here s.layout.sharedLib) rest)).of_eq hlib hm
  have hgrows : m.disk.Grows m₁.disk := (merging_moves (copyLib_grows s p)).of_eq hlib
  have hhere₁ := hgrows.directory hhere
  obtain ⟨-, hspared'⟩ := (copyBin_spares hslash hgems fun rest =>
    List.prefix_append (goal here s.layout.binStubs) rest).of_eq hbin hm₁
  constructor
  · intro hspec rest e he
    have hlib := merging_eq_ok hlib
    rw [if_neg (by simp [hspec])] at hlib
    have hcopied := (copyLib_filled hgemsShared hm hhere hlib).filled
      (goal here s.layout.sharedLib ++ rest) e (by rwa [Tree.shift_append])
    have hkept := hspared' _ (Beside.left hsharedStubs rest).2
    rw [hkept.eq_of_isSome (by rw [hcopied]; rfl), hcopied]
  · intro rest e he
    have hbefore := binFiles_of_spared hslash hm hm₁ hhere hgrows
      (fun rest => hspared _ (hgemsShared.left rest).2) he
    exact get?_of_copyBin hslash hgems hgemsStubs hm₁ hhere₁ hbin hbefore

end Stager

end Staging

end GemStaging
