import GemStaging.Proofs.Files.Footprint
import GemStaging.Proofs.Staging.Fetching
import GemStaging.Proofs.Staging.Supply

/-!
Where staging one package may write, whether it succeeds or fails. The archive is put into the build
directory, the installer has the gem home, and publishing has what is below the shared tree, what is
below the executables of the package, and one name among the kept descriptors; beside that
directories are made on the way of the paths (`Stager.apply_touches`).
-/

namespace GemStaging

open Effect Disk GemStaging.Path Disk.Footprint

variable {here : Location}

namespace Staging

theorem keepDownload_allows (bytes : Bytes) (target : Path) :
    Moves (ofFile here target).Allows here (keepDownload bytes target) :=
  keepDownload_moves fun _ _ _ hfree =>
    .put_file (fun hd => hd.isName_of_resolve hfree) fun hd => hd.loc_of_resolve hfree

namespace Stager

/-- The installer touches the gem home and the way there. -/
structure Enclosed (s : Stager) (here : Location) : Prop where
  allows : ∀ calls archive, Moves (OnDisk (ofCopy here s.layout.gemHome).Allows) here
    (s.install calls archive s.layout.gemHome)

theorem Enclosed.homebound {s : Stager} (h : Enclosed s here)
    (hstays : ∀ calls archive, Moves (OnDisk (Stays here)) here
      (s.install calls archive s.layout.gemHome)) : Homebound s here where
  confined calls archive m := (h.allows calls archive m).confined.mono fun _ => .imp_right fun
    | .inr hbelow => hbelow
  stays := hstays

section Footprints
variable (s : Stager) (here : Location) (p : Package) (name : String)

def fetching : Footprint where
  makes loc := loc ∈ stops here s.layout.buildDir
  puts loc := loc = goal here s.layout.buildDir ++ [p.archiveName]
  owns _ := False

/-- What copying the libraries of a package may touch: nothing where it has none. -/
def sharing : Footprint where
  makes loc := p.specOnly = false ∧ loc ∈ stops here s.layout.sharedLib
  puts _ := False
  owns loc :=
    p.specOnly = false ∧ ∃ entry rest, loc = goal here s.layout.sharedLib ++ entry :: rest

def keeping : Footprint where
  makes loc := loc ∈ stops here s.layout.defaultSpecs
  puts loc := loc = goal here s.layout.defaultSpecs ++ [name]
  owns _ := False

/-- What publishing a package may touch, whose descriptor has a certain name. -/
def publishing : Footprint where
  makes loc := p.specOnly = false ∧ loc ∈ stops here s.layout.sharedLib ∨
    loc ∈ stops here (s.layout.binStubs.below [p.fullName, "bin"]) ∨
    loc ∈ stops here s.layout.defaultSpecs
  puts loc := loc = goal here s.layout.defaultSpecs ++ [name]
  owns loc :=
    p.specOnly = false ∧ (∃ entry rest, loc = goal here s.layout.sharedLib ++ entry :: rest) ∨
    ∃ entry rest, loc = goal here s.layout.binStubs ++ p.fullName :: "bin" :: entry :: rest

/-- What staging a package may touch: also the gem home, which is the installer's. -/
def staging : Footprint where
  makes loc := loc ∈ stops here s.layout.buildDir ∨ (s.publishing here p name).makes loc
  puts loc := loc = goal here s.layout.buildDir ++ [p.archiveName] ∨
    loc = goal here s.layout.defaultSpecs ++ [name]
  owns loc := goal here s.layout.gemHome <+: loc ∨ (s.publishing here p name).owns loc

end Footprints

variable {s : Stager} {p : Package} {name : String} {m : Machine} {w : World}

theorem fetching_within : (s.fetching here p).Within (s.staging here p name) where
  makes _ h := .inl (.inl h)
  puts _ h := .inl (.inl h)
  owns _ := False.elim

theorem sharing_within : (s.sharing here p).Within (s.publishing here p name) where
  makes _ h := .inl (.inl h)
  puts _ := False.elim
  owns _ h := .inl h

theorem keeping_within : (s.keeping here name).Within (s.publishing here p name) where
  makes _ h := .inl (.inr (.inr h))
  puts _ h := .inl h
  owns _ := False.elim

theorem publishing_within : (s.publishing here p name).Within (s.staging here p name) where
  makes _ h := .inl (.inr h)
  puts _ h := .inl (.inr h)
  owns _ h := .inr h

theorem merging_allows : Moves (OnDisk (s.sharing here p).Allows) here (s.merging p) := by
  cases hspec : p.specOnly with
  | true =>
    rw [merging, hspec]
    exact .pure 0
  | false =>
    refine merging_moves (copyLib_moves (fun _ _ h hc => h hc hc) fun base entry hentry c => ?_)
    refine (Files.copyInto_allows hentry c).mono (ofCopy_within hentry ?_ ?_)
    · exact fun _ hx => ⟨hspec, hx⟩
    · exact fun rest => ⟨hspec, entry, rest, rfl⟩

/-- On a plain disk the step touches what publishing the package may touch, under some name that a
descriptor of the package can have. -/
def Publishes (s : Stager) (here : Location) (p : Package) {α : Type} (e : Work α) : Prop :=
  ∀ m, m.disk.Plain → ∃ name, p.matchesDescriptor name ∧
    (s.publishing here p name).Allows m.disk (e here m).2.disk

theorem Publishes.bind {α β : Type} {e : Work α} {f : α → Work β}
    (he : ∀ name, Moves (OnDisk (s.publishing here p name).Allows) here e)
    (hf : ∀ x, s.Publishes here p (f x)) : s.Publishes here p (e >>= f) := by
  intro m hm
  obtain ⟨g, m', h⟩ | ⟨x, m', h⟩ := e.error_or_ok here m
  · rw [bind_apply_error h]
    exact ⟨_, p.matchesDescriptor_descriptorName, (he _).of_eq h⟩
  · rw [bind_apply_ok h]
    obtain ⟨name, hmatch, hrest⟩ := hf x m' ((he "").of_eq h hm).1
    exact ⟨name, hmatch, trans_of (Allows _) ((he name).of_eq h) hrest⟩

section Steps
variable {base : Path} {config : LayoutSection} (hlayout : s.layout = .resolve base config)

include hlayout in
theorem installing_within :
    (ofCopy here s.layout.gemHome).Within (s.staging here p name) := by
  have howns (rest : Location) : goal here s.layout.gemHome <+:
      goal here s.layout.buildDir ++ "rubygems" :: rest := by
    rw [Layout.gemHome_eq hlayout, goal_div (by decide)]
    simp
  rw [Layout.gemHome_eq hlayout]
  exact ofCopy_within (by decide) (fun _ hx => .inl hx) fun rest => .inl (howns rest)

variable (hslash : p.Slashless)
include hslash

theorem fetch_allows (r : Repository) :
    Moves (OnDisk (s.fetching here p).Allows) here (r.fetch p s.layout.buildDir) := by
  have harchive := hslash.isName_archiveName
  have htarget : (ofFile here (s.layout.buildDir / p.archiveName)).Within (s.fetching here p) :=
    ofFile_within harchive (fun _ hx => hx) rfl
  have hdir : (ofDir here s.layout.buildDir).Within (s.fetching here p) :=
    ⟨fun _ => .inl, fun _ => False.elim, fun _ => id⟩
  refine Repository.fetch_moves (fun c => ?_) (fun candidate c => ?_) fun bytes c => ?_
  · exact (Files.ensureDir_allows _ c).mono hdir
  · exact (Files.copyFile_allows candidate _ c).mono htarget
  · exact (keepDownload_allows bytes _ c).mono htarget

theorem fetched_allows {r : Repository} (hfetch : s.fetch = fun _ => r.fetch) :
    (s.fetching here p).Allows w.machine.disk (s.fetched here p w).2.disk := by
  rw [fetched, hfetch]
  exact fetch_allows hslash r w.machine

include hlayout

theorem copyBin_allows (name : String) :
    Moves (OnDisk (s.publishing here p name).Allows) here (s.copyBin p) := by
  have hgems := Layout.steps_gemsDir hlayout
  refine copyBin_moves (fun _ _ h hc => h hc hc) hslash hgems fun entry hnames c => ?_
  have hsteps : (s.layout.gemsDir.below [p.fullName, "bin", entry]).steps ≠ [] :=
    steps_below_ne_nil (by simp) hnames
  have htarget : (ofCopy here (s.layout.binStubs.join
      (ofNames [p.fullName, "bin", entry]))).Within (s.publishing here p name) := by
    rw [ofCopy_join hnames]
    refine ofCopy_within (hnames entry (by simp)) (fun _ hx => .inr (.inl hx)) fun rest => ?_
    refine .inr ⟨entry, rest, ?_⟩
    have hgoal : goal here (s.layout.binStubs.below [p.fullName, "bin"]) =
        goal here s.layout.binStubs ++ [p.fullName, "bin"] := goal_below hslash.isName_bin
    exact (congrArg (· ++ entry :: rest) hgoal).trans (List.append_assoc _ _ _)
  exact (Files.copyTo_allows _ hsteps c).mono htarget

omit hlayout hslash in
theorem keeps_descriptor (hname : IsName name) : Moves (s.keeping here name).Allows here
    (Files.copyFile (s.layout.specsDir / name) (s.layout.defaultSpecs / name)) := fun c =>
  (Files.copyFile_allows _ _ c).mono (ofFile_within hname (fun _ hx => hx) rfl)

omit hlayout hslash in
theorem copyDescriptor_publishes : s.Publishes here p (s.copyDescriptor p) := by
  intro m hm
  rw [disk_copyDescriptor]
  split
  · exact ⟨_, p.matchesDescriptor_descriptorName, refl_of (Allows _) m.disk⟩
  · rename_i name hfind
    have hname := hm.isName_of_mem_namesAt (List.mem_of_find?_eq_some hfind)
    exact ⟨name, List.find?_some hfind, (keeps_descriptor hname m.disk).mono keeping_within⟩

theorem publish_publishes : s.Publishes here p (s.publish p) := by
  rw [publish_eq]
  refine .bind (fun _ c => (merging_allows c).mono sharing_within) fun n =>
    .bind (copyBin_allows hlayout hslash) fun k m hm => ?_
  rw [snd_bind_pure]
  exact copyDescriptor_publishes m hm

omit hlayout hslash in
/-- A staging ends as obtaining its package does, or as publishing it does. -/
theorem apply_ends (r : Reservation) :
    (s.apply r (.stage p) here w).2.machine = (s.obtain p here w).2.machine ∨
      (s.apply r (.stage p) here w).2.machine =
        (s.publish p here (s.obtain p here w).2.machine).2 := by
  obtain ⟨f, w₁, hobtain⟩ | ⟨⟨⟩, w₁, hobtain⟩ := (s.obtain p).error_or_ok here w
  · rw [apply, bind_apply_error hobtain, hobtain]
    exact .inl rfl
  · rw [apply_stage_of_obtain hobtain, hobtain]
    exact .inr rfl

theorem apply_publishes (r : Reservation) (hw : (s.obtain p here w).2.machine.disk.Plain) :
    ∃ name, p.matchesDescriptor name ∧
      (s.publishing here p name).Allows (s.obtain p here w).2.machine.disk
        (s.apply r (.stage p) here w).2.machine.disk := by
  rcases apply_ends (w := w) r with hends | hends
  · rw [hends]
    exact ⟨_, p.matchesDescriptor_descriptorName, refl_of (Allows _) _⟩
  · rw [hends]
    exact publish_publishes hlayout hslash _ hw

omit hlayout hslash in
theorem obtain_installs (hinstall : Enclosed s here) :
    (ofCopy here s.layout.gemHome).Allows (s.fetched here p w).2.disk
      (s.obtain p here w).2.machine.disk := by
  cases hfetched : s.fetched here p w with
  | mk x m =>
    cases x with
    | error f =>
      rw [obtain_of_fetched_error hfetched]
      exact refl_of (Allows _) m.disk
    | ok archive =>
      have hok : (s.fetched here p w).1 = .ok archive := by rw [hfetched]
      rw [obtain_of_fetched hok, ← show (s.fetched here p w).2 = m by rw [hfetched]]
      exact hinstall.allows _ _ _

end Steps

end Stager

end Staging

def Layout.OnWay (l : Layout) (here loc : Location) : Prop :=
  ∃ root ∈ [l.buildDir, l.sharedLib, l.binStubs, l.defaultSpecs], loc ∈ stops here root

namespace Staging

namespace Stager
variable {s : Stager} {p : Package} {w w' : World}

/-- What staging a package has touched: no more than it may; no archive that was there; outside the
gem home nothing was removed, and nowhere else either where the installer only adds. In the gem home
neither getting the archive nor publishing the package did more than to make directories on the way
of the paths. -/
structure Touches (s : Stager) (here : Location) (p : Package) (w w' : World) : Prop where
  within : ∃ name, p.matchesDescriptor name ∧
    (s.staging here p name).Allows w.machine.disk w'.machine.disk
  archive : ¬ Repository.Unearths p s.layout.buildDir here w.machine.disk → ∀ e,
    w.machine.disk.get? (goal here s.layout.buildDir ++ [p.archiveName]) = some e →
      w'.machine.disk.get? (goal here s.layout.buildDir ++ [p.archiveName]) = some e
  kept : ∀ loc e, ¬ goal here s.layout.gemHome <+: loc → w.machine.disk.get? loc = some e →
    ∃ e', w'.machine.disk.get? loc = some e' ∧ e.Continues e'
  grown : OnlyAdds here s.install → w.machine.disk.Grows w'.machine.disk
  home : ∀ loc, goal here s.layout.gemHome <+: loc →
    MadeAt (s.layout.OnWay here) loc w.machine.disk (s.fetched here p w).2.disk ∧
      MadeAt (s.layout.OnWay here) loc (s.obtain p here w).2.machine.disk w'.machine.disk

section Touching
variable {base : Path} {config : LayoutSection} (hlayout : s.layout = .resolve base config)
variable (hunnested : Unnested s.layout here)
include hlayout hunnested

omit hlayout in
theorem not_below_of_buildDir {loc : Location} (hloc : goal here s.layout.buildDir <+: loc) :
    ¬ goal here s.layout.sharedLib <+: loc ∧ ¬ goal here s.layout.binStubs <+: loc ∧
      ¬ goal here s.layout.defaultSpecs <+: loc := by
  have hbeside {root : Path}
      (hroot : root ∈ [s.layout.sharedLib, s.layout.binStubs, s.layout.defaultSpecs]) :
      ¬ goal here root <+: loc := by
    obtain ⟨hbuild, hother⟩ := List.rel_of_pairwise_cons hunnested hroot
    intro hbelow
    rcases List.prefix_or_prefix_of_prefix hloc hbelow with h | h
    · exact hbuild h
    · exact hother h
  exact ⟨hbeside (by simp), hbeside (by simp), hbeside (by simp)⟩

omit hunnested in
theorem buildDir_above_gemHome : goal here s.layout.buildDir <+: goal here s.layout.gemHome := by
  rw [Layout.gemHome_eq hlayout, goal_div (by decide)]
  exact List.prefix_append _ _

omit hunnested in
theorem archive_outside_gemHome :
    ¬ goal here s.layout.gemHome <+: goal here s.layout.buildDir ++ [p.archiveName] := by
  intro hbelow
  rw [Layout.gemHome_eq hlayout, goal_div (by decide)] at hbelow
  have hname : ["rubygems"] = [p.archiveName] :=
    ((List.prefix_append_right_inj _).1 hbelow).eq_of_length rfl
  exact p.archiveName_ne_rubygems (List.singleton_inj.1 hname).symm

omit hunnested in
theorem fetching_passes {loc : Location} {c d : Disk} (hloc : goal here s.layout.gemHome <+: loc)
    (hc : c.Plain) (h : (s.fetching here p).Allows c d) :
    MadeAt (s.layout.OnWay here) loc c d := by
  refine (h.madeAt hc (fun hputs => ?_) id).mono fun hmakes => ⟨_, by simp, hmakes⟩
  exact archive_outside_gemHome hlayout (hputs ▸ hloc)

omit hlayout in
theorem publishing_passes {loc : Location} {name : String} {c d : Disk} (hslash : p.Slashless)
    (hloc : goal here s.layout.buildDir <+: loc) (hc : c.Plain)
    (h : (s.publishing here p name).Allows c d) : MadeAt (s.layout.OnWay here) loc c d := by
  obtain ⟨hshared, hstubs, hspecs⟩ := not_below_of_buildDir hunnested hloc
  refine (h.madeAt hc (fun hputs => ?_) ?_).mono ?_
  · exact hspecs (hputs ▸ List.prefix_append _ _)
  · rintro (⟨-, entry, rest, rfl⟩ | ⟨entry, rest, rfl⟩)
    · exact hshared (List.prefix_append _ _)
    · exact hstubs (List.prefix_append _ _)
  · rintro (⟨-, hmakes⟩ | hmakes | hmakes)
    · exact ⟨_, by simp, hmakes⟩
    · rcases mem_stops_below hslash.isName_bin hmakes with hmakes | ⟨hbelow, -⟩
      · exact ⟨_, by simp, hmakes⟩
      · exact absurd hbelow hstubs
    · exact ⟨_, by simp, hmakes⟩

/-- Staging a package touches what it may touch, whether it succeeds or fails. -/
theorem apply_touches {repository : Repository} (hfetch : s.fetch = fun _ => repository.fetch)
    (hinstall : Enclosed s here) (hslash : p.Slashless) (hw : w.machine.disk.Plain)
    (hhere : w.machine.disk.get? here = some .directory) (r : Reservation) :
    Touches s here p w (s.apply r (.stage p) here w).2 := by
  have hfetched : (s.fetching here p).Allows w.machine.disk (s.fetched here p w).2.disk :=
    fetched_allows hslash hfetch
  have hobtained := obtain_installs (p := p) (w := w) hinstall
  have hw₁ := (hfetched hw).1
  have hw₂ := (hobtained hw₁).1
  obtain ⟨name, hmatch, hpublished⟩ := apply_publishes hlayout hslash r hw₂
  have hsource : (s.fetched here p w).2 =
      (repository.fetch p s.layout.buildDir here w.machine).2 := by rw [fetched, hfetch]
  have hgot (loc : Location) (hloc : ¬ goal here s.layout.gemHome <+: loc) :
      SparedAt loc (s.fetched here p w).2.disk (s.obtain p here w).2.machine.disk :=
    (hobtained.madeAt hw₁ id hloc).sparedAt
  have hgrows : (s.obtain p here w).2.machine.disk.Grows
      (s.apply r (.stage p) here w).2.machine.disk := by
    rcases apply_ends (w := w) r with hends | hends
    · rw [hends]
      exact .refl _
    · rw [hends]
      exact publish_grows s p _
  refine ⟨⟨name, hmatch, ?_⟩, fun hno e he => ?_, fun loc e hloc he => ?_, fun honly => ?_,
    fun loc hloc => ⟨?_, ?_⟩⟩
  · exact trans_of (Allows _) (hfetched.mono fetching_within)
      (trans_of (Allows _) (hobtained.mono (installing_within hlayout))
        (hpublished.mono publishing_within))
  · -- it is kept while it is got, and neither installing nor publishing goes to its place
    have hfound := Repository.fetch_extends repository hhere hno _ e he
    rw [← hsource] at hfound
    have hinstalled := (hgot _ (archive_outside_gemHome hlayout)).eq_of_isSome (by rw [hfound]; rfl)
    have hpassed := publishing_passes hunnested hslash (List.prefix_append _ [p.archiveName]) hw₂
      hpublished
    rw [hpassed.sparedAt.eq_of_isSome (by rw [hinstalled, hfound]; rfl), hinstalled, hfound]
  · have hfetches : w.machine.disk.Grows (s.fetched here p w).2.disk := by
      rw [hsource]
      exact Repository.fetch_grows _ _ _ _
    obtain ⟨e₁, he₁, hcontinues⟩ := hfetches loc e he
    have hsame := (hgot loc hloc).eq_of_isSome (by rw [he₁]; rfl)
    obtain ⟨e₂, he₂, hcontinues'⟩ := hgrows loc e₁ (hsame.trans he₁)
    exact ⟨e₂, he₂, hcontinues.trans hcontinues'⟩
  · refine .trans (obtain_moves (R := Grows) (fun calls p dir => ?_) honly p w) hgrows
    rw [hfetch]
    exact Repository.fetch_grows _ _ _
  · exact fetching_passes hlayout hloc hw hfetched
  · exact publishing_passes hunnested hslash ((buildDir_above_gemHome hlayout).trans hloc) hw₂
      hpublished

end Touching

end Stager

theorem enclosed_stagerOf (config : LayoutSection) : Stager.Enclosed (stagerOf config) here := by
  constructor
  intro calls archive
  refine unpacking_moves isName_sampleContents (fun names hnames content c => ?_) calls archive
  have hplace : goal here (stagerOf config).layout.gemHome <+:
      goal here ((stagerOf config).layout.gemHome.join (ofNames names)) := by
    rw [goal_join_ofNames hnames]
    exact List.prefix_append _ _
  refine .of_spares (Files.writeText_confined (fun x hx => ?_) content c)
    (Files.writeText_spares hplace content c)
  exact around_of_mem_stops_join hnames hx

/-- What stands at some places once the places are reserved, once the archive of a package was got,
and once the package was staged. -/
def stagedAt (s : Stager) (p : Package) (locs : List Location) :
    Option (List (Option Entry × Option Entry × Option Entry)) :=
  match s.reserve [] [] archived.machine with
  | (.error _, _) => none
  | (.ok r, m) =>
    let fetched := (s.fetched [] p { archived with machine := m }).2.disk
    let staged := (s.apply r (.stage p) [] { archived with machine := m }).2.machine.disk
    some (locs.map fun loc => (m.disk.get? loc, fetched.get? loc, staged.get? loc))

theorem reserved_of_stagedAt {s : Stager} {p : Package} {locs : List Location}
    {entries : List (Option Entry × Option Entry × Option Entry)}
    (h : stagedAt s p locs = some entries) :
    ∃ r m, s.reserve [] [] archived.machine = (.ok r, m) ∧
      locs.map (fun loc => (m.disk.get? loc,
        (s.fetched [] p { archived with machine := m }).2.disk.get? loc,
        (s.apply r (.stage p) [] { archived with machine := m }).2.machine.disk.get? loc)) =
        entries := by
  rw [stagedAt] at h
  split at h
  · cases h
  · rename_i r m hreserve
    exact ⟨r, m, hreserve, Option.some.inj h⟩

theorem stagedAt_sample : stagedAt sampleStager packageA [["b", "a-1"], ["d", "a-1.gemspec"]] =
    some [(none, none, some .directory), (none, none, some (.file [] .data))] := by
  decide +kernel

/-- A stager whose build directory is reached through a place in the gem home. -/
def winding : Stager := stagerOf ⟨⟨"t/rubygems/x/../../../t"⟩, ⟨"l"⟩, ⟨"b"⟩, ⟨"d"⟩⟩

/-- Looking for an archive makes a directory in the gem home there. And wherever there are
executables, a directory named after the package is made for them in the stub root. -/
theorem winding_touches :
    archived.machine.disk.Plain ∧ (Unnested winding.layout [] ∧ Stager.Enclosed winding [] ∧
      ∃ p : Package, p.Slashless ∧ ∃ r m, winding.reserve [] [] archived.machine = (.ok r, m) ∧
        m.disk.get? ["t", "rubygems", "x"] = none ∧
        (winding.fetched [] p { archived with machine := m }).2.disk.get? ["t", "rubygems", "x"] =
          some .directory) ∧
    Unnested sampleStager.layout [] ∧ Stager.Enclosed sampleStager [] ∧ packageA.Slashless ∧
      ∃ r m, sampleStager.reserve [] [] archived.machine = (.ok r, m) ∧
        m.disk.get? ["b", "a-1"] = none ∧
        (sampleStager.apply r (.stage packageA) []
          { archived with machine := m }).2.machine.disk.get? ["b", "a-1"] = some .directory := by
  refine ⟨plain_archived, ?_, ?_⟩
  · have hstaged : stagedAt winding ⟨"b", "1", false⟩ [["t", "rubygems", "x"]] =
        some [(none, some .directory, some .directory)] := by decide +kernel
    obtain ⟨r, m, hreserve, hentries⟩ := reserved_of_stagedAt hstaged
    obtain ⟨hbefore, hfetched, -⟩ : _ ∧ _ ∧ _ := by simpa using hentries
    exact ⟨by decide +kernel, enclosed_stagerOf _, _, ⟨by decide, by decide⟩, r, m, hreserve,
      hbefore, hfetched⟩
  · obtain ⟨r, m, hreserve, hentries⟩ := reserved_of_stagedAt stagedAt_sample
    obtain ⟨⟨hbefore, -, hstaged⟩, -⟩ : (_ ∧ _ ∧ _) ∧ _ := by simpa using hentries
    exact ⟨by decide +kernel, enclosed_stagerOf _, ⟨by decide, by decide⟩, r, m, hreserve,
      hbefore, hstaged⟩

theorem apply_touches_sample : ∃ r m, sampleStager.reserve [] [] archived.machine = (.ok r, m) ∧
    (sampleStager.apply r (.stage packageA) []
      { archived with machine := m }).2.machine.disk.get? ["d", "a-1.gemspec"] =
        some (.file [] .data) ∧
    sampleStager.Touches [] packageA { archived with machine := m }
      (sampleStager.apply r (.stage packageA) [] { archived with machine := m }).2 := by
  obtain ⟨r, m, hreserve, hentries⟩ := reserved_of_stagedAt stagedAt_sample
  obtain ⟨-, -, -, hfile⟩ : _ ∧ _ ∧ _ ∧ _ := by simpa using hentries
  have hlayout : sampleStager.layout = .resolve ⟨"/"⟩ _ := rfl
  have hfetch : sampleStager.fetch = fun _ => emptyRepository.fetch := rfl
  have hplain : m.disk.Plain :=
    ((Stager.reserve_confined sampleStager []).of_eq hreserve plain_archived).1
  exact ⟨r, m, hreserve, hfile, Stager.apply_touches hlayout (by decide +kernel) hfetch
    (enclosed_stagerOf _) ⟨by decide, by decide⟩ hplain (get?_root _) r⟩

end Staging

end GemStaging
