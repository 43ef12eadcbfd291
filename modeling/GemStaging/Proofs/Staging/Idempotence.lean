import GemStaging.Proofs.Files.Rewriting
import GemStaging.Proofs.Staging.Growth
import GemStaging.Proofs.Staging.Steps

/-!
Staging again. After a run that succeeded every placeholder is there, every wanted package has a
descriptor in the gem home, and every loader stub holds its text. All of that survives the rest of
the run, so that a second run skips every package and leaves the disk as it finds it.
-/

namespace GemStaging

open Effect Disk

variable {here : Location}

namespace Staging

namespace Stager

section Placeholders
variable {p : Path} {rest created : List Path} {m m' : Machine}

theorem makePlaceholders_of_there (rest : List Path) (h : m.disk.existsAt here p) :
    ∃ m₁, m.OnlyLogged m₁ ∧
      makePlaceholders (p :: rest) here m = makePlaceholders rest here m₁ := by
  have hthere : (liftM (Access.isThere p : Files Bool) : Work Bool) here m = (.ok true, m) := by
    rw [Files.lift_eq_ok_iff]
    exact ⟨m.disk, by rw [← h]; rfl, rfl⟩
  obtain ⟨m₁, hnote, hlogged⟩ := Work.note_apply .debug source
    "placeholder already present" [("path", p.text)] m
  refine ⟨m₁, hlogged, ?_⟩
  rw [makePlaceholders, bind_apply_ok hthere, if_pos rfl, bind_apply_ok hnote]

theorem makePlaceholders_of_missing (hp : ¬ m.disk.existsAt here p)
    (h : makePlaceholders (p :: rest) here m = (.ok created, m')) :
    ∃ c d place more m₁, Files.ensureParent p here m.disk = (.ok (), c) ∧
      Access.openFile p .data here c = (.ok place, d) ∧ m₁.disk = d ∧
      makePlaceholders rest here m₁ = (.ok more, m') ∧ created = p :: more := by
  obtain ⟨there, m₁, hthere, h⟩ := bind_eq_ok_iff.1 h
  obtain ⟨d, hd, rfl⟩ := Files.lift_eq_ok_iff.1 hthere
  obtain ⟨rfl, rfl⟩ : m.disk.existsAt here p = there ∧ _ := ok_inj hd
  rw [if_neg hp] at h
  obtain ⟨⟨⟩, m₁, hparent, h⟩ := bind_eq_ok_iff.1 h
  obtain ⟨c, hc, rfl⟩ := Files.lift_eq_ok_iff.1 hparent
  obtain ⟨place, m₂, hopen, h⟩ := bind_eq_ok_iff.1 h
  obtain ⟨d, hd, rfl⟩ := Files.lift_eq_ok_iff.1 hopen
  rw [mapError_eq_ok_iff] at hd
  obtain ⟨⟨⟩, m₃, hnote, h⟩ := bind_eq_ok_iff.1 h
  obtain ⟨-, rfl⟩ := Prod.mk.inj hnote
  obtain ⟨more, m₄, hmore, h⟩ := bind_eq_ok_iff.1 h
  obtain ⟨rfl, rfl⟩ := ok_inj h
  exact ⟨c, d, place, more, _, hc, hd, rfl, hmore, rfl⟩

theorem existsAt_of_makePlaceholders {ps : List Path}
    (hhere : m.disk.get? here = some .directory)
    (h : makePlaceholders ps here m = (.ok created, m')) :
    ∀ p ∈ ps, m'.disk.existsAt here p := by
  induction ps generalizing m created with
  | nil => simp
  | cons p rest ih =>
    by_cases hp : m.disk.existsAt here p
    · obtain ⟨m₁, ⟨hdisk, -⟩, hcons⟩ := makePlaceholders_of_there rest hp
      have hg : m.disk.Grows m'.disk := (makePlaceholders_grows (p :: rest)).of_eq h
      rw [hcons] at h
      exact List.forall_mem_cons.2 ⟨hg.existsAt hhere hp, ih (hdisk ▸ hhere) h⟩
    · obtain ⟨c, d, ⟨dir, name, mode⟩, more, m₁, hc, hd, rfl, hmore, -⟩ :=
        makePlaceholders_of_missing hp h
      have hhere' := (Files.ensureParent_extends p).of_eq hc here _ hhere
      obtain ⟨hfile, -, harrives⟩ := Access.openFile_arrives hhere' hd
      have hg : m₁.disk.Grows m'.disk := (makePlaceholders_grows rest).of_eq hmore
      refine List.forall_mem_cons.2 ⟨?_, ih ?_ hmore⟩
      · exact existsAt_iff.2 ⟨_, harrives _ hg .look (.inl rfl), hg.isSome (by rw [hfile]; rfl)⟩
      · exact ((Access.openFile_grows p .data).of_eq hd).directory hhere'

theorem makePlaceholders_again {ps : List Path} (h : ∀ p ∈ ps, m.disk.existsAt here p) :
    ∃ m', makePlaceholders ps here m = (.ok [], m') ∧ m.OnlyLogged m' := by
  induction ps generalizing m with
  | nil => exact ⟨m, rfl, rfl, rfl⟩
  | cons p rest ih =>
    obtain ⟨hp, hrest⟩ := List.forall_mem_cons.1 h
    obtain ⟨m₁, hm₁, hcons⟩ := makePlaceholders_of_there rest hp
    obtain ⟨m', hm', hlogged⟩ := ih (m := m₁) (hm₁.1 ▸ hrest)
    exact ⟨m', hcons.trans hm', hm₁.trans hlogged⟩

end Placeholders

theorem reserve_again {s : Stager} {ps : List Path} {r : Reservation} {m m' m'' : Machine}
    (hhere : m.disk.get? here = some .directory) (h : s.reserve ps here m = (.ok r, m'))
    (hg : m'.disk.Grows m''.disk) :
    ∃ r' m₃, s.reserve ps here m'' = (.ok r', m₃) ∧ r'.created = [] ∧ m''.OnlyLogged m₃ := by
  obtain ⟨⟨⟩, m₁, hspecs, h⟩ := bind_eq_ok_iff.1 h
  obtain ⟨d, hd, rfl⟩ := Files.lift_eq_ok_iff.1 hspecs
  obtain ⟨created, m₂, hcreated, h⟩ := bind_eq_ok_iff.1 h
  obtain ⟨-, rfl⟩ := Prod.mk.inj h
  have hhere' := (Files.ensureDir_extends _).of_eq hd here _ hhere
  have hg' : d.Grows m₂.disk := (makePlaceholders_grows ps).of_eq hcreated
  have hthere : ∀ p ∈ ps, m''.disk.existsAt here p := fun p hp =>
    hg.existsAt (hg'.directory hhere') (existsAt_of_makePlaceholders hhere' hcreated p hp)
  obtain ⟨m₃, hm₃, hlogged⟩ := makePlaceholders_again hthere
  have hspecs' : (liftM (Files.ensureDir s.layout.defaultSpecs) : Work Unit) here m'' =
      (.ok (), m'') :=
    Files.lift_eq_ok_iff.2 ⟨_, Files.ensureDir_again hhere hd (hg'.trans hg), rfl⟩
  cases hx : s.reserve ps here m'' with
  | mk x m₄ =>
    have hx' := hx
    rw [reserve, bind_apply_ok hspecs', bind_apply_ok hm₃] at hx'
    obtain ⟨rfl, rfl⟩ := Prod.mk.inj hx'
    exact ⟨_, _, rfl, rfl, hlogged⟩

/-- Stubs that were written once are written again by filling the same files in the same order. -/
theorem writeStubs_again {stubs : List (Path × List String)} {written : List Path}
    {m m' : Machine} (hhere : m.disk.get? here = some .directory)
    (h : writeStubs stubs here m = (.ok written, m')) :
    ∃ fills, Refilled fills m.disk m'.disk ∧
      ∀ m'', m'.disk.Renews m''.disk → ∃ m₃, writeStubs stubs here m'' = (.ok written, m₃) ∧
        m₃.disk = m''.disk.refillAll fills ∧ m₃.requests = m''.requests := by
  induction stubs generalizing m written with
  | nil =>
    obtain ⟨rfl, rfl⟩ := ok_inj h
    exact ⟨[], .nil _, fun m'' _ => ⟨m'', rfl, rfl, rfl⟩⟩
  | cons stub rest ih =>
    obtain ⟨path, archives⟩ := stub
    obtain ⟨⟨⟩, m₁, hwrite, h⟩ := bind_eq_ok_iff.1 h
    obtain ⟨d, hd, rfl⟩ := Files.lift_eq_ok_iff.1 hwrite
    obtain ⟨⟨⟩, m₂, hnote, h⟩ := bind_eq_ok_iff.1 h
    obtain ⟨hdisk, -⟩ := Work.note_eq_ok hnote
    obtain ⟨more, m₃, hmore, h⟩ := bind_eq_ok_iff.1 h
    obtain ⟨rfl, rfl⟩ := ok_inj h
    simp only at hdisk
    obtain ⟨loc, mode, hmode, hfile, hothers, hagain⟩ := Files.writeText_again hhere hd
    have hwritten : m.disk.Grows d := (Files.writeText_grows path _).of_eq hd
    have hrenews : d.Renews m₃.disk :=
      hdisk ▸ (writeStubs_moves Files.writeText_renews rest).of_eq hmore
    obtain ⟨fills, hrefilled, hrest⟩ := ih (hdisk ▸ hwritten.directory hhere) hmore
    rw [hdisk] at hrefilled
    refine ⟨(loc, Text.encode (renderStub archives)) :: fills,
      .cons (.single hmode hfile hothers) hrefilled, fun m'' hm'' => ?_⟩
    have hfirst : (liftM (writeStub path archives) : Work Unit) here m'' = (.ok (), _) :=
      Files.lift_eq_ok_iff.2 ⟨_, hagain m''.disk (trans_of Renews hrenews hm''), rfl⟩
    obtain ⟨m₄, hnote', hlogged⟩ := Work.note_apply .debug source
      "wrote loader stub" [("path", path.text)]
      { m'' with disk := m''.disk.refill loc (Text.encode (renderStub archives)) }
    obtain ⟨m₅, hm₅, hdisk₅, hrequests⟩ := hrest m₄ (by
      rw [hlogged.1]
      exact trans_of Renews hm'' (.refill _ _ _))
    refine ⟨m₅, ?_, ?_, hrequests.trans hlogged.2⟩
    · rw [writeStubs, bind_apply_ok hfirst, bind_apply_ok hnote', bind_apply_ok hm₅]
      rfl
    · rw [hdisk₅, hlogged.1]
      rfl

theorem Installed.grows {s : Stager} {p : Package} {c d : Disk} (h : s.Installed here p c)
    (hg : c.Grows d) : s.Installed here p d := by
  obtain ⟨name, hname, hmatch⟩ := h
  exact ⟨name, hg.mem_namesAt hname, hmatch⟩

theorem installed_of_publish {s : Stager} {p : Package} {x : Staged} {m m' : Machine}
    (h : s.publish p here m = (.ok x, m')) : s.Installed here p m'.disk := by
  obtain ⟨m₁, m₂, -, -, hdescriptor, -⟩ := publish_eq_ok h
  have hg : m₂.disk.Grows m'.disk := (copyDescriptor_grows s p).of_eq hdescriptor
  obtain ⟨hfind, -⟩ := copyDescriptor_eq_ok hdescriptor
  have hinstalled : s.Installed here p m₂.disk :=
    ⟨x.descriptor, List.mem_of_find?_eq_some hfind, List.find?_some hfind⟩
  exact hinstalled.grows hg

section Acting
variable {s : Stager} {r : Reservation} {w w' : World}

theorem installed_of_applyAll
    (hfetch : ∀ calls p dir, Moves (OnDisk Grows) here (s.fetch calls p dir))
    (hinstall : OnlyAdds here s.install) {actions : List Action} {os : List Outcome}
    (h : s.applyAll r actions here w = (.ok (os, none), w')) {p : Package}
    (hp : .stage p ∈ actions) : s.Installed here p w'.machine.disk := by
  induction actions generalizing w os with
  | nil => simp at hp
  | cons a rest ih =>
    obtain ⟨o, w₁, more, ha, hrest, -⟩ := applyAll_cons_eq_ok h
    rcases List.mem_cons.1 hp with rfl | hp
    · obtain ⟨w₀, x, -, hpublish, -⟩ := apply_stage_eq_ok ha
      have hg : w₁.machine.disk.Grows w'.machine.disk :=
        (applyAll_moves (fun _ _ hg => hg) hfetch hinstall r rest).of_eq hrest
      exact (installed_of_publish hpublish).grows hg
    · exact ih hrest hp

theorem applyAll_skips {actions : List Action} (h : ∀ a ∈ actions, a.isSkip) :
    ∃ w', s.applyAll r actions here w =
        (.ok (actions.map (.skipped ·.package.fullName), none), w') ∧
      w'.calls = w.calls ∧ w.machine.OnlyLogged w'.machine := by
  induction actions generalizing w with
  | nil => exact ⟨w, rfl, rfl, rfl, rfl⟩
  | cons a rest ih =>
    obtain ⟨ha, hrest⟩ := List.forall_mem_cons.1 h
    cases a with
    | stage p => simp [Action.isSkip] at ha
    | skip p descriptor =>
      obtain ⟨m', hskip, hlogged⟩ := apply_skip s r p descriptor w
      obtain ⟨w', hw', hcalls, hlogged'⟩ := ih (w := { w with machine := m' }) hrest
      exact ⟨w', applyAll_cons_of_ok hskip hw', hcalls, hlogged.trans hlogged'⟩

end Acting

end Stager

/-- A staging run repeats to nothing: directly after a run that succeeded the same run succeeds
again, plans a skip for every package, makes no placeholder, no call and no request, and leaves
the disk as it is. -/
theorem Job.run_again {j : Job} {repository : Repository}
    (hfetch : j.stager.fetch = fun _ => repository.fetch)
    (hinstall : OnlyAdds here j.stager.install) {w w' : World} {report : Report}
    (hhere : w.machine.disk.get? here = some .directory)
    (h : j.run here w = (.ok report, w')) :
    (∃ actions, planFor j.packages j.stager.layout.specsDir here w'.machine.disk =
        (.ok actions, w'.machine.disk) ∧
      actions.map Action.package = j.packages ∧ ∀ a ∈ actions, a.isSkip) ∧
    ∃ report' w'', j.run here w' = (.ok report', w'') ∧
      report'.placeholders = [] ∧
      report'.outcomes = j.packages.map (.skipped ·.fullName) ∧
      report'.loaderStubs = report.loaderStubs ∧
      w''.machine.disk = w'.machine.disk ∧
      w''.machine.requests = w'.machine.requests ∧
      w''.calls = w'.calls := by
  obtain ⟨r, m₁, w₂, hreserve, hacts, hstubs, hcalls, hcreated⟩ := Job.run_eq_ok h
  have hfetch' : ∀ calls p dir, Moves (OnDisk Grows) here (j.stager.fetch calls p dir) := by
    intro calls p dir
    rw [hfetch]
    exact repository.fetch_grows p dir
  have hg₁ : w.machine.disk.Grows m₁.disk := (Stager.reserve_grows _ _).of_eq hreserve
  have hg₂ : m₁.disk.Grows w₂.machine.disk :=
    (Stager.applyAll_moves (fun _ _ hg => hg) hfetch' hinstall r _).of_eq hacts
  have hg₃ : w₂.machine.disk.Grows w'.machine.disk := (Stager.writeStubs_grows _).of_eq hstubs
  -- every package is installed at the end: before the run, or by its own action
  have hinstalled : ∀ p ∈ j.packages, j.stager.Installed here p w'.machine.disk := by
    intro p hp
    have hmem := List.mem_map_of_mem (f := Action.decide
      (w.machine.disk.namesAt here j.stager.layout.specsDir)) hp
    by_cases hskip : (Action.decide (w.machine.disk.namesAt here j.stager.layout.specsDir) p).isSkip
    · have hbefore : j.stager.Installed here p w.machine.disk := Action.isSkip_decide_iff.1 hskip
      exact hbefore.grows ((hg₁.trans hg₂).trans hg₃)
    · rw [Action.eq_stage hskip] at hmem
      exact (Stager.installed_of_applyAll hfetch' hinstall hacts hmem).grows hg₃
  have hskips : ∀ a ∈ plan j.packages (w'.machine.disk.namesAt here j.stager.layout.specsDir),
      a.isSkip := by
    intro a ha
    obtain ⟨p, hp, rfl⟩ := List.mem_map.1 ha
    exact Action.isSkip_decide_iff.2 (hinstalled p hp)
  refine ⟨⟨_, planFor_apply _ _ _, by simp [plan, Function.comp_def], hskips⟩, ?_⟩
  obtain ⟨r', m₃, hreserve', hnone, hlogged₃⟩ :=
    Stager.reserve_again hhere hreserve (hg₂.trans hg₃)
  obtain ⟨w₄, hacts', hcalls', hlogged₄⟩ :=
    Stager.applyAll_skips (s := j.stager) (r := r')
      (w := { w' with machine := m₃ }) hskips
  obtain ⟨fills, hrefilled, hagain⟩ := Stager.writeStubs_again
    ((hg₁.trans hg₂).directory hhere) hstubs
  have hdisk₄ : w₄.machine.disk = w'.machine.disk := hlogged₄.1.trans hlogged₃.1
  obtain ⟨m₅, hstubs', hdisk₅, hrequests⟩ := hagain w₄.machine (hdisk₄ ▸ .refl _)
  refine ⟨_, _, Job.run_of_ok hreserve' hacts' hstubs', hnone, ?_, rfl, ?_, ?_, hcalls'⟩
  · simp [plan, Function.comp_def]
  · rw [hdisk₅, hdisk₄, refillAll_eq_self hrefilled.filled]
  · exact hrequests.trans (hlogged₄.2.trans hlogged₃.2)

/-- A run with a package, a spec-only package, a placeholder behind a link to nothing, and a stub
that is written twice. -/
def sampleJob : Job where
  stager :=
    { layout := ⟨⟨"/t"⟩, ⟨"/h"⟩, ⟨"/h/g"⟩, ⟨"/h/s"⟩, ⟨"/l"⟩, ⟨"/b"⟩, ⟨"/d"⟩⟩
      fetch := fun _ => emptyRepository.fetch
      install := unpacking fun archive =>
        if archive.fileName? = some "a-1.gem" then [("g/a-1/lib/a.rb", "A"), ("s/a-1.gemspec", "")]
        else [("s/b-2.gemspec", "")] }
  packages := [⟨"a", "1", false⟩, ⟨"b", "2", true⟩]
  placeholders := [⟨"/p"⟩]
  stubs := [(⟨"/l/x.rb"⟩, ["y.jar"]), (⟨"/l/x.rb"⟩, ["z.jar"])]

def sampleWorld : World where
  machine.disk := Disk.onlyRoot.put [] "t" .directory
    |>.put ["t"] "a-1.gem" (.file [] .data) |>.put ["t"] "b-2.gem" (.file [] .data)
    |>.put [] "p" (.link ⟨"q"⟩)

def sampleReport : Report where
  placeholders := [⟨"/p"⟩]
  outcomes := [.staged ⟨"a-1", 1, 0, "a-1.gemspec"⟩, .staged ⟨"b-2", 0, 0, "b-2.gemspec"⟩]
  loaderStubs := [⟨"/l/x.rb"⟩, ⟨"/l/x.rb"⟩]

theorem run_again_sample :
    ∃ w' report' w'', sampleJob.run [] sampleWorld = (.ok sampleReport, w') ∧
      sampleJob.run [] w' = (.ok report', w'') ∧
      report'.outcomes = [.skipped "a-1", .skipped "b-2"] ∧
      w''.machine.disk = w'.machine.disk := by
  have hok : (sampleJob.run [] sampleWorld).1 = .ok sampleReport := by decide +kernel
  have hfetch : sampleJob.stager.fetch = fun _ => emptyRepository.fetch := rfl
  cases hrun : sampleJob.run [] sampleWorld with
  | mk x w' =>
    rw [hrun] at hok
    obtain rfl : x = .ok sampleReport := hok
    obtain ⟨-, report', w'', hagain, -, houtcomes, -, hdisk, -⟩ :=
      Job.run_again hfetch (unpacking_onlyAdds _) (Disk.get?_root _) hrun
    refine ⟨w', report', w'', rfl, hagain, ?_, hdisk⟩
    rw [houtcomes]
    decide +kernel

end Staging

end GemStaging
