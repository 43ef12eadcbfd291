import GemStaging.Proofs.Staging.Publishing

/-!
Staging after failed runs. The runs of one job follow one another, each with a fetcher and an
installer of its own, and any of them may fail at any point. The sign by which a package is
skipped is written by the installer, before anything is published: a run that fails in between
leaves a package which no later run takes up. Every other package is published once a run succeeds
(`History.published_or_left`).
-/

namespace GemStaging.Staging

open Effect Disk GemStaging.Path

variable {here : Location}

namespace Stager

variable {s : Stager} {r : Reservation} {w w' : World} {actions : List Action}

theorem snd_applyAll_cons {a : Action} {rest : List Action} {o : Outcome}
    (ha : s.apply r a here w = (.ok o, w')) :
    (s.applyAll r (a :: rest) here w).2 = (s.applyAll r rest here w').2 := by
  have hattempt : ((s.apply r a).attempt : Run _) here w = (.ok (.ok o), w') := by
    rw [attempt_apply, ha]
  rw [applyAll, bind_apply_ok hattempt]
  simp only
  rw [bind_apply]
  split <;> rename_i h
  · rw [h]
    rfl
  · rw [h]

theorem mem_stagings_of_applyAll {os : List Outcome}
    (h : s.applyAll r actions here w = (.ok (os, none), w')) {p : Package}
    (hp : .stage p ∈ actions) : ∃ installed, (p, installed) ∈ s.stagings r here actions w := by
  have hmem : p ∈ (s.stagings r here actions w).map (·.1) := by
    rw [fst_stagings h]
    exact List.mem_map.2 ⟨.stage p, List.mem_filter.2 ⟨hp, rfl⟩, rfl⟩
  obtain ⟨⟨q, installed⟩, hq, rfl⟩ := List.mem_map.1 hmem
  exact ⟨installed, hq⟩

section Acting
variable (hfetch : ∀ calls p dir, Moves (OnDisk (Keeps s.layout here)) here (s.fetch calls p dir))
variable (hinstall : ∀ calls archive home,
  Moves (OnDisk (Keeps s.layout here)) here (s.install calls archive home))
include hfetch hinstall

/-- Whatever some actions staged is published when they end, also where a later one fails. -/
theorem published_of_stagings (hhere : w.machine.disk.get? here = some .directory)
    {q : Package × Disk} (hq : q ∈ s.stagings r here actions w) :
    Published s.layout here q.1 q.2 (s.applyAll r actions here w).2.machine.disk := by
  induction actions generalizing w with
  | nil => simp [stagings] at hq
  | cons a rest ih =>
    rw [stagings] at hq
    cases ha : s.apply r a here w with
    | mk x w₁ =>
      cases x with
      | error f => simp [ha] at hq
      | ok o =>
        simp only [ha] at hq
        have hk : Keeps s.layout here w.machine.disk w₁.machine.disk :=
          (apply_moves (fun _ _ => Keeps.of_grows) hfetch hinstall r a).of_eq ha
        have hhere₁ := (hk hhere).1
        rw [snd_applyAll_cons ha]
        cases a with
        | skip => exact ih hhere₁ hq
        | stage p =>
          rcases List.mem_cons.1 hq with rfl | hq
          · obtain ⟨w₀, x, hobtain, hpublish, -⟩ := apply_stage_eq_ok ha
            have hhere₀ : w₀.machine.disk.get? here = some .directory :=
              ((obtain_moves hfetch hinstall p).of_eq hobtain hhere).1
            have hrest := applyAll_moves (fun _ _ => Keeps.of_grows) hfetch hinstall r rest w₁
            rw [hobtain]
            exact (published_of_publish hhere₀ hpublish).keeps hhere₁ hrest
          · exact ih hhere₁ hq

end Acting

end Stager

/-- The packages that a run stages, each with the disk right after it was installed. -/
def Job.stagings (j : Job) (here : Location) (w : World) : List (Package × Disk) :=
  match j.stager.reserve j.placeholders here w.machine with
  | (.error _, _) => []
  | (.ok r, m) =>
    j.stager.stagings r here
      (plan j.packages (w.machine.disk.namesAt here j.stager.layout.specsDir))
      { w with machine := m }

namespace Job
variable {j : Job} {w : World}

theorem mem_stagings_of_run {report : Report} (h : (j.run here w).1 = .ok report) {p : Package}
    (hp : p ∈ j.packages) (hbare : ¬ j.stager.Installed here p w.machine.disk) :
    ∃ installed, (p, installed) ∈ j.stagings here w := by
  obtain ⟨r, m, w₂, hreserve, hacts, -⟩ := run_eq_ok (Prod.ext h rfl)
  have hskip := mt Action.isSkip_decide_iff.1 hbare
  have hstage := List.mem_map_of_mem (f := Action.decide
    (w.machine.disk.namesAt here j.stager.layout.specsDir)) hp
  rw [Action.eq_stage hskip] at hstage
  rw [stagings, hreserve]
  exact Stager.mem_stagings_of_applyAll hacts hstage

theorem grows_of_reserve {r : Reservation} {m : Machine}
    (hreserve : j.stager.reserve j.placeholders here w.machine = (.ok r, m)) :
    (j.stager.applyAll r
        (plan j.packages (w.machine.disk.namesAt here j.stager.layout.specsDir)) here
        { w with machine := m }).2.machine.disk.Grows (j.run here w).2.machine.disk := by
  rw [run_of_reserve hreserve, bind_apply]
  split
  · rename_i outcome w₂ hacts
    rw [hacts]
    obtain ⟨os, fault⟩ := outcome
    cases fault with
    | some f => exact .refl _
    | none =>
      have hstubs : Moves (OnMachine (OnDisk Grows)) here (do
          let loaderStubs ← (Stager.writeStubs j.stubs : Work _)
          return { placeholders := r.created, outcomes := os, loaderStubs } : Run Report) :=
        .bind (Work.lift_moves (Stager.writeStubs_grows _)) fun _ => .pure _
      exact hstubs w₂
  · rename_i f w₂ hacts
    rw [hacts]
    exact .refl _

theorem published_of_stagings
    (hfetch : ∀ calls p dir,
      Moves (OnDisk (Keeps j.stager.layout here)) here (j.stager.fetch calls p dir))
    (hinstall : ∀ calls archive home,
      Moves (OnDisk (Keeps j.stager.layout here)) here (j.stager.install calls archive home))
    (hhere : w.machine.disk.get? here = some .directory) {q : Package × Disk}
    (hq : q ∈ j.stagings here w) :
    Published j.stager.layout here q.1 q.2 (j.run here w).2.machine.disk := by
  rw [stagings] at hq
  cases hreserve : j.stager.reserve j.placeholders here w.machine with
  | mk x m =>
    cases x with
    | error f => simp [hreserve] at hq
    | ok r =>
      simp only [hreserve] at hq
      have hhere' : m.disk.get? here = some .directory :=
        ((Stager.reserve_grows _ _).of_eq hreserve : w.machine.disk.Grows m.disk).directory hhere
      have hpublished := Stager.published_of_stagings hfetch hinstall hhere' hq
      have hacts := Stager.applyAll_moves (fun _ _ => Keeps.of_grows) hfetch hinstall r
        (plan j.packages (w.machine.disk.namesAt here j.stager.layout.specsDir))
        { w with machine := m }
      exact hpublished.keeps (hacts hhere').1 (.of_grows (grows_of_reserve hreserve))

end Job

/-- One run among several of a job: with whom it works, and where it starts. -/
structure Attempt where
  fetch : List Call → Package → Path → Work Path
  install : List Call → Path → Path → Work Unit
  start : World

namespace Attempt
variable (a : Attempt) (j : Job) (here : Location)

def job : Job :=
  { j with stager := { j.stager with fetch := a.fetch, install := a.install } }

def result : Except Fault Report := ((a.job j).run here a.start).1

def finish : Disk := ((a.job j).run here a.start).2.machine.disk

/-- The packages that the attempt stages, each with the disk right after it was installed. -/
def stagings : List (Package × Disk) := (a.job j).stagings here a.start

/-- The attempt starts in a directory, and neither its fetcher nor its installer takes away what
stands in the shared tree or among the kept descriptors. -/
structure Careful : Prop where
  place : a.start.machine.disk.get? here = some .directory
  fetch : ∀ calls p dir, Moves (OnDisk (Keeps j.stager.layout here)) here (a.fetch calls p dir)
  install : ∀ calls archive home,
    Moves (OnDisk (Keeps j.stager.layout here)) here (a.install calls archive home)

variable {a j here}

theorem Careful.keeps (h : a.Careful j here) :
    Keeps j.stager.layout here a.start.machine.disk (a.finish j here) :=
  Job.run_moves (j := a.job j) (fun _ _ => Keeps.of_grows) h.fetch h.install a.start

theorem Careful.published (h : a.Careful j here) {q : Package × Disk}
    (hq : q ∈ a.stagings j here) : Published j.stager.layout here q.1 q.2 (a.finish j here) :=
  Job.published_of_stagings (j := a.job j) h.fetch h.install h.place hq

end Attempt

/-- Attempts at one job, the latest first. The first one begins with no descriptor of its packages
in the gem home. Between two of them anything may change on the disk, as long as no descriptor of
the packages is added and what was published stays published. -/
inductive History (j : Job) (here : Location) : List Attempt → Prop where
  | first {a : Attempt} :
      (∀ p ∈ j.packages, ¬ j.stager.Installed here p a.start.machine.disk) → History j here [a]
  | next {a b : Attempt} {earlier : List Attempt} : History j here (b :: earlier) →
      (∀ p ∈ j.packages, j.stager.Installed here p a.start.machine.disk →
        j.stager.Installed here p (b.finish j here)) →
      (∀ c ∈ b :: earlier, ∀ q ∈ c.stagings j here,
        Published j.stager.layout here q.1 q.2 (b.finish j here) →
        Published j.stager.layout here q.1 q.2 a.start.machine.disk) →
      History j here (a :: b :: earlier)

/-- An attempt failed and left a descriptor of the package behind, and up to then no attempt had
staged the package. -/
def LeftBehind (j : Job) (here : Location) (history : List Attempt) (p : Package) : Prop :=
  ∃ later a before, history = later ++ a :: before ∧ (∃ f, a.result j here = .error f) ∧
    j.stager.Installed here p (a.finish j here) ∧
    ∀ b ∈ a :: before, ∀ q ∈ b.stagings j here, q.1 ≠ p

namespace History
variable {j : Job} {a : Attempt} {earlier : List Attempt}

theorem published (h : History j here (a :: earlier))
    (hcareful : ∀ c ∈ a :: earlier, c.Careful j here) :
    ∀ c ∈ a :: earlier, ∀ q ∈ c.stagings j here,
      Published j.stager.layout here q.1 q.2 (a.finish j here) := by
  generalize hlist : a :: earlier = history at h
  induction h generalizing a earlier with
  | first =>
    obtain ⟨rfl, rfl⟩ := List.cons.inj hlist
    intro c hc q hq
    obtain rfl := List.mem_singleton.1 hc
    exact (hcareful c hc).published hq
  | next _ _ hkept ih =>
    obtain ⟨rfl, rfl⟩ := List.cons.inj hlist
    obtain ⟨ha, hbefore⟩ := List.forall_mem_cons.1 hcareful
    intro c hc q hq
    rcases List.mem_cons.1 hc with rfl | hc
    · exact ha.published hq
    · exact (hkept c hc q hq (ih hbefore rfl c hc q hq)).keeps ha.place ha.keeps

/-- Once an attempt succeeds every package has been staged, but for those that a failed one left
behind. -/
theorem staged_or_left (h : History j here (a :: earlier)) {report : Report}
    (hok : a.result j here = .ok report) :
    ∀ p ∈ j.packages, (∃ c ∈ a :: earlier, ∃ installed, (p, installed) ∈ c.stagings j here) ∨
      LeftBehind j here earlier p := by
  intro p hp
  generalize hlist : a :: earlier = history at h
  induction h generalizing a earlier report with
  | first hbare =>
    obtain ⟨rfl, rfl⟩ := List.cons.inj hlist
    exact .inl ⟨a, List.mem_cons_self, Job.mem_stagings_of_run (j := a.job j) hok hp (hbare p hp)⟩
  | @next _ b before _ hmarkers _ ih =>
    obtain ⟨rfl, rfl⟩ := List.cons.inj hlist
    by_cases hinstalled : j.stager.Installed here p a.start.machine.disk
    · -- the descriptor was there when the attempt before this one ended
      have hleft := hmarkers p hp hinstalled
      by_cases hstaged : ∃ c ∈ b :: before, ∃ installed, (p, installed) ∈ c.stagings j here
      · obtain ⟨c, hc, hmem⟩ := hstaged
        exact .inl ⟨c, List.mem_cons_of_mem _ hc, hmem⟩
      · cases hb : b.result j here with
        | ok report =>
          rcases ih hb rfl with hstaged' | ⟨later, c, rest, rfl, hc⟩
          · exact absurd hstaged' hstaged
          · exact .inr ⟨b :: later, c, rest, rfl, hc⟩
        | error f =>
          refine .inr ⟨[], b, before, rfl, ⟨f, hb⟩, hleft, ?_⟩
          rintro c hc ⟨q, installed⟩ hq rfl
          exact hstaged ⟨c, hc, installed, hq⟩
    · exact .inl ⟨a, List.mem_cons_self, Job.mem_stagings_of_run (j := a.job j) hok hp hinstalled⟩

/-- When an attempt succeeds, each package was staged by it or by one before it, unless a failed
one left the package behind; and what was staged, then or earlier, is published. -/
theorem published_or_left (h : History j here (a :: earlier))
    (hcareful : ∀ c ∈ a :: earlier, c.Careful j here) {report : Report}
    (hok : a.result j here = .ok report) :
    (∀ p ∈ j.packages, (∃ c ∈ a :: earlier, ∃ installed, (p, installed) ∈ c.stagings j here) ∨
      LeftBehind j here earlier p) ∧
    ∀ c ∈ a :: earlier, ∀ q ∈ c.stagings j here,
      Published j.stager.layout here q.1 q.2 (a.finish j here) :=
  ⟨h.staged_or_left hok, h.published hcareful⟩

end History

/-- The latest attempt of a history succeeds, and yet a package is not published as its libraries
are then. -/
def Lacking (j : Job) (a : Attempt) (earlier : List Attempt) : Prop :=
  History j [] (a :: earlier) ∧ (∃ report, a.result j [] = .ok report) ∧
    ∃ p ∈ j.packages, ¬ Published j.stager.layout [] p (a.finish j []) (a.finish j [])

def shortLayout : Layout := ⟨⟨"/t"⟩, ⟨"/"⟩, ⟨"/g"⟩, ⟨"/s"⟩, ⟨"/l"⟩, ⟨"/b"⟩, ⟨"/d"⟩⟩

/-- A job whose archives are wherever they are looked for. -/
def sampleOf (packages : List Package) (contents : String → List (String × String)) : Job where
  stager :=
    { layout := shortLayout
      fetch := fun _ p dir => return dir / p.archiveName
      install := unpacking fun archive => contents (archive.fileName?.getD "") }
  packages := packages
  placeholders := []
  stubs := []

def Job.attempt (j : Job) (disk : Disk) : Attempt :=
  ⟨j.stager.fetch, j.stager.install, ⟨⟨disk, [], []⟩, []⟩⟩

theorem lacking_of {j : Job} {a : Attempt} {earlier : List Attempt} {report : Report} {p : Package}
    {dir entry : String} (h : History j [] (a :: earlier))
    (hp : p ∈ j.packages ∧ p.specOnly = false ∧ p.matchesUnpacked dir)
    (hnames : IsName dir ∧ IsName entry)
    (hend : a.result j [] = .ok report ∧
      dir ∈ (a.finish j []).namesAt [] j.stager.layout.gemsDir ∧
      entry ∈ (a.finish j []).namesAt [] (j.stager.layout.gemsDir / dir / "lib") ∧
      ¬ (a.finish j []).existsAt [] (j.stager.layout.sharedLib / entry)) : Lacking j a earlier := by
  obtain ⟨hp, hspec, hmatch⟩ := hp
  obtain ⟨hdir, hentry⟩ := hnames
  obtain ⟨hok, hmem, hlib, hmissing⟩ := hend
  exact ⟨h, ⟨report, hok⟩, p, hp, fun hpublished =>
    hmissing (hpublished.libraries hspec dir entry hdir hentry hmem hmatch hlib)⟩

def oneGem : Job :=
  sampleOf [⟨"a", "1", false⟩] fun _ => [("g/a-1/lib/x", ""), ("s/a-1.gemspec", "")]

/-- A directory stands where the library file is to go. -/
def blocked : Attempt :=
  oneGem.attempt (Disk.onlyRoot.put [] "l" .directory |>.put ["l"] "x" .directory)

/-- The directory is gone. -/
def cleared : Attempt := oneGem.attempt ((blocked.finish oneGem []).remove ["l", "x"])

/-- A package, and one that is spec-only and whose version begins with that of the first. -/
def twoGems : Job :=
  sampleOf [⟨"a", "1", false⟩, ⟨"a", "10", true⟩] fun archive =>
    if archive = "a-1.gem" then [("g/a-1/lib/x", ""), ("s/a-1.gemspec", "")]
    else [("g/a-10/lib/y", ""), ("s/a-10.gemspec", "")]

/-- Installing the second package removes the shared tree. -/
def wiping : Attempt where
  fetch := twoGems.stager.fetch
  install calls archive home := do
    twoGems.stager.install calls archive home
    if archive.fileName? = some "a-10.gem" then
      Effect.modify fun m => { m with disk := m.disk.remove ["l"] }
  start.machine.disk := .onlyRoot

theorem lacking_samples :
    Lacking oneGem cleared [blocked] ∧ Lacking twoGems (twoGems.attempt .empty) [] ∧
      Lacking twoGems wiping [] := by
  have hbare : ∀ p ∈ twoGems.packages,
      ¬ ∃ name ∈ Disk.onlyRoot.namesAt [] twoGems.stager.layout.specsDir,
        p.matchesDescriptor name := by decide +kernel
  refine ⟨?_, ?_, ?_⟩
  · have hfirst : ∀ p ∈ oneGem.packages,
        ¬ ∃ name ∈ blocked.start.machine.disk.namesAt [] oneGem.stager.layout.specsDir,
          p.matchesDescriptor name := by decide +kernel
    have hmarked : ∀ p ∈ oneGem.packages,
        ∃ name ∈ (blocked.finish oneGem []).namesAt [] oneGem.stager.layout.specsDir,
          p.matchesDescriptor name := by decide +kernel
    have hnothing : blocked.stagings oneGem [] = [] := by
      rw [← List.isEmpty_iff]
      decide +kernel
    have hhistory : History oneGem [] [cleared, blocked] := by
      refine .next (.first hfirst) (fun p hp _ => hmarked p hp) ?_
      intro c hc q hq
      obtain rfl := List.mem_singleton.1 hc
      simp [hnothing] at hq
    have hend : cleared.result oneGem [] = .ok ⟨[], [.skipped "a-1"], []⟩ ∧
        "a-1" ∈ (cleared.finish oneGem []).namesAt [] shortLayout.gemsDir ∧
        "x" ∈ (cleared.finish oneGem []).namesAt [] (shortLayout.gemsDir / "a-1" / "lib") ∧
        ¬ (cleared.finish oneGem []).existsAt [] (shortLayout.sharedLib / "x") := by decide +kernel
    exact lacking_of (p := ⟨"a", "1", false⟩) hhistory (by decide +kernel) (by decide +kernel) hend
  · have hend : (twoGems.attempt .empty).result twoGems [] = .ok ⟨[], [.staged ⟨"a-1", 1, 0,
        "a-1.gemspec"⟩, .staged ⟨"a-10", 0, 0, "a-10.gemspec"⟩], []⟩ ∧
        "a-10" ∈ ((twoGems.attempt .empty).finish twoGems []).namesAt [] shortLayout.gemsDir ∧
        "y" ∈ ((twoGems.attempt .empty).finish twoGems []).namesAt []
          (shortLayout.gemsDir / "a-10" / "lib") ∧
        ¬ ((twoGems.attempt .empty).finish twoGems []).existsAt []
          (shortLayout.sharedLib / "y") := by decide +kernel
    exact lacking_of (p := ⟨"a", "1", false⟩) (.first hbare) (by decide +kernel)
      (by decide +kernel) hend
  · have hend : wiping.result twoGems [] = .ok ⟨[], [.staged ⟨"a-1", 1, 0,
        "a-1.gemspec"⟩, .staged ⟨"a-10", 0, 0, "a-10.gemspec"⟩], []⟩ ∧
        "a-1" ∈ (wiping.finish twoGems []).namesAt [] shortLayout.gemsDir ∧
        "x" ∈ (wiping.finish twoGems []).namesAt [] (shortLayout.gemsDir / "a-1" / "lib") ∧
        ¬ (wiping.finish twoGems []).existsAt [] (shortLayout.sharedLib / "x") := by decide +kernel
    exact lacking_of (p := ⟨"a", "1", false⟩) (.first hbare) (by decide +kernel)
      (by decide +kernel) hend

/-- A file stands where the descriptors are to go, so that the package is unpacked only in part. -/
def halted : Attempt :=
  oneGem.attempt (Disk.onlyRoot.put [] "s" (.file [] .data))

/-- The file is gone. -/
def resumed : Attempt := oneGem.attempt ((halted.finish oneGem []).remove ["s"])

theorem careful_attempt (packages : List Package) (contents : String → List (String × String))
    (disk : Disk) :
    ((sampleOf packages contents).attempt disk).Careful (sampleOf packages contents) [] where
  place := disk.get?_root
  fetch _ _ _ := .pure _
  install calls archive home m := .of_grows (unpacking_onlyAdds _ calls archive home m)

theorem published_or_left_sample :
    (∃ f, halted.result oneGem [] = .error f) ∧
      ∃ installed,
        Published shortLayout [] ⟨"a", "1", false⟩ installed (resumed.finish oneGem []) := by
  have hfirst : ∀ p ∈ oneGem.packages,
      ¬ ∃ name ∈ halted.start.machine.disk.namesAt [] oneGem.stager.layout.specsDir,
        p.matchesDescriptor name := by decide +kernel
  have hbetween : ∀ p ∈ oneGem.packages,
      ¬ (∃ name ∈ (halted.finish oneGem []).namesAt [] oneGem.stager.layout.specsDir,
        p.matchesDescriptor name) ∧
      ¬ (∃ name ∈ resumed.start.machine.disk.namesAt [] oneGem.stager.layout.specsDir,
        p.matchesDescriptor name) := by decide +kernel
  have hnothing : halted.stagings oneGem [] = [] := by
    rw [← List.isEmpty_iff]
    decide +kernel
  have hhistory : History oneGem [] [resumed, halted] := by
    refine .next (.first hfirst) (fun p hp h => absurd h (hbetween p hp).2) ?_
    intro c hc q hq
    obtain rfl := List.mem_singleton.1 hc
    simp [hnothing] at hq
  have hcareful : ∀ c ∈ [resumed, halted], c.Careful oneGem [] := by
    simpa using ⟨careful_attempt _ _ _, careful_attempt _ _ _⟩
  have hfail : ∃ f, halted.result oneGem [] = .error f := by
    cases h : halted.result oneGem [] with
    | error f => exact ⟨f, rfl⟩
    | ok report =>
      have hnot : (halted.result oneGem []).isOk = false := by decide +kernel
      simp [h, Except.isOk, Except.toBool] at hnot
  have hok : resumed.result oneGem [] =
      .ok ⟨[], [.staged ⟨"a-1", 1, 0, "a-1.gemspec"⟩], []⟩ := by decide +kernel
  obtain ⟨hstaged, hpublished⟩ := hhistory.published_or_left hcareful hok
  refine ⟨hfail, ?_⟩
  rcases hstaged ⟨"a", "1", false⟩ List.mem_cons_self with ⟨c, hc, installed, hq⟩ | hleft
  · exact ⟨installed, hpublished c hc _ hq⟩
  · obtain ⟨later, a, before, hlist, -, hinstalled, -⟩ := hleft
    obtain rfl : halted = a := by
      rcases later with - | ⟨c, - | ⟨c', later⟩⟩ <;> simp_all
    exact absurd hinstalled (hbetween _ List.mem_cons_self).1

end GemStaging.Staging
