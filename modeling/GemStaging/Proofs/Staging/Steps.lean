import GemStaging.Proofs.Files.Growth
import GemStaging.Staging.Run

/-!
What the steps of a staging run come to. Each statement takes one step apart: from a step that
succeeded it gives the parts that it consists of and the machines between them, so that no later
proof opens a step again.
-/

namespace GemStaging

open Effect Disk

variable {here : Location} {α : Type}

theorem Files.lift_apply (e : Files α) (m : Machine) :
    (liftM e : Work α) here m =
      ((e here m.disk).1, { m with disk := (e here m.disk).2 }) := rfl

theorem Work.lift_apply (e : Work α) (w : World) :
    (liftM e : Run α) here w =
      ((e here w.machine).1, { w with machine := (e here w.machine).2 }) := rfl

theorem Run.call_apply (x : Call) (act : List Call → Work α) (w : World) :
    Run.call x act here w = ((act (w.calls ++ [x]) here w.machine).1,
      ⟨(act (w.calls ++ [x]) here w.machine).2, w.calls ++ [x]⟩) := rfl

theorem Files.lift_eq_ok_iff {e : Files α} {x : α} {m m' : Machine} :
    (liftM e : Work α) here m = (.ok x, m') ↔
      ∃ d, e here m.disk = (.ok x, d) ∧ m' = { m with disk := d } := by
  rw [Files.lift_apply]
  constructor
  · intro h
    obtain ⟨hx, rfl⟩ := Prod.mk.inj h
    exact ⟨_, Prod.ext hx rfl, rfl⟩
  · rintro ⟨d, hd, rfl⟩
    rw [hd]

theorem Work.lift_eq_ok_iff {e : Work α} {x : α} {w w' : World} :
    (liftM e : Run α) here w = (.ok x, w') ↔
      ∃ m, e here w.machine = (.ok x, m) ∧ w' = { w with machine := m } := by
  rw [Work.lift_apply]
  constructor
  · intro h
    obtain ⟨hx, rfl⟩ := Prod.mk.inj h
    exact ⟨_, Prod.ext hx rfl, rfl⟩
  · rintro ⟨d, hd, rfl⟩
    rw [hd]

/-- Between the machines nothing happened but that lines were logged. -/
def Machine.OnlyLogged (m m' : Machine) : Prop :=
  m'.disk = m.disk ∧ m'.requests = m.requests

theorem Machine.OnlyLogged.trans {m m' m'' : Machine} (h : m.OnlyLogged m')
    (h' : m'.OnlyLogged m'') : m.OnlyLogged m'' :=
  ⟨h'.1.trans h.1, h'.2.trans h.2⟩

theorem Work.note_apply (level : Log.Level) (source message : String)
    (fields : List (String × String)) (m : Machine) :
    ∃ m', Work.note level source message fields here m = (.ok (), m') ∧ m.OnlyLogged m' :=
  ⟨_, rfl, rfl, rfl⟩

theorem Work.note_eq_ok {level : Log.Level} {source message : String}
    {fields : List (String × String)} {m m' : Machine}
    (h : Work.note level source message fields here m = (.ok (), m')) : m.OnlyLogged m' := by
  obtain ⟨-, rfl⟩ := Prod.mk.inj h
  exact ⟨rfl, rfl⟩

namespace Staging

theorem planFor_apply (packages : List Package) (specsDir : Path) (d : Disk) :
    planFor packages specsDir here d = (.ok (plan packages (d.namesAt here specsDir)), d) := by
  rw [planFor, bind_apply_ok (Files.listNames_apply specsDir d)]
  rfl

namespace Action
variable {installed : List String} {p : Package}

@[simp] theorem package_decide : (decide installed p).package = p := by
  rw [decide]
  split <;> rfl

theorem eq_stage (h : ¬ (decide installed p).isSkip) : decide installed p = .stage p := by
  rw [decide] at h ⊢
  split
  · rename_i hfind
    simp [hfind, isSkip] at h
  · rfl

theorem isSkip_decide_iff :
    (decide installed p).isSkip ↔ ∃ name ∈ installed, p.matchesDescriptor name := by
  rw [decide, ← List.find?_isSome]
  split <;> rename_i h <;> simp [h, isSkip]

end Action

namespace Stager
variable {s : Stager} {p : Package} {m m' : Machine} {w w' : World}

/-- The gem home holds a descriptor of the package. -/
def Installed (s : Stager) (here : Location) (p : Package) (d : Disk) : Prop :=
  ∃ name ∈ d.namesAt here s.layout.specsDir, p.matchesDescriptor name

/-- Copying the descriptor depends on the listing only through the first name that matches. -/
theorem copyDescriptor_apply (s : Stager) (p : Package) (m : Machine) :
    s.copyDescriptor p here m =
      (match (m.disk.namesAt here s.layout.specsDir).find? p.matchesDescriptor with
        | none => .fail (.descriptorMissing p.name p.version s.layout.specsDir.text)
        | some name => do
          Work.note .info source ("copy specification " ++ name)
          (Files.copyFile (s.layout.specsDir / name) (s.layout.defaultSpecs / name) : Files Unit)
          return name : Work String) here m := by
  have hlist : (liftM (Files.listNames s.layout.specsDir) : Work _) here m =
      (.ok (m.disk.namesAt here s.layout.specsDir), m) := by
    rw [Files.lift_apply, Files.listNames_apply]
  rw [copyDescriptor]
  exact bind_apply_ok hlist

theorem copyDescriptor_eq_ok {name : String}
    (h : s.copyDescriptor p here m = (.ok name, m')) :
    (m.disk.namesAt here s.layout.specsDir).find? p.matchesDescriptor = some name ∧
      Files.copyFile (s.layout.specsDir / name) (s.layout.defaultSpecs / name) here m.disk =
        (.ok (), m'.disk) := by
  rw [copyDescriptor_apply] at h
  cases hfind : (m.disk.namesAt here s.layout.specsDir).find? p.matchesDescriptor with
  | none => simp [hfind] at h
  | some found =>
    simp only [hfind] at h
    obtain ⟨⟨⟩, m₂, hnote, h⟩ := bind_eq_ok_iff.1 h
    obtain ⟨hdisk, -⟩ := Work.note_eq_ok hnote
    obtain ⟨⟨⟩, m₃, hcopy, h⟩ := bind_eq_ok_iff.1 h
    obtain ⟨d, hd, rfl⟩ := Files.lift_eq_ok_iff.1 hcopy
    obtain ⟨rfl, rfl⟩ := ok_inj h
    exact ⟨rfl, hdisk ▸ hd⟩

/-- Copying the descriptor of a package copies the first one that matches, where there is one. -/
theorem disk_copyDescriptor (s : Stager) (p : Package) (m : Machine) :
    (s.copyDescriptor p here m).2.disk =
      match (m.disk.namesAt here s.layout.specsDir).find? p.matchesDescriptor with
      | none => m.disk
      | some name => (Files.copyFile (s.layout.specsDir / name) (s.layout.defaultSpecs / name) here
          m.disk).2 := by
  rw [copyDescriptor_apply]
  cases (m.disk.namesAt here s.layout.specsDir).find? p.matchesDescriptor with
  | none => rfl
  | some name =>
    obtain ⟨m₁, hnote, hdisk, -⟩ :
        ∃ m₁, Work.note .info source ("copy specification " ++ name) [] here m = (.ok (), m₁) ∧
          m.OnlyLogged m₁ := Work.note_apply ..
    simp only
    rw [bind_apply_ok hnote, snd_bind_pure, Files.lift_apply, hdisk]

/-- A package is published in three steps: libraries, unless it is spec-only, executables,
descriptor. -/
theorem publish_eq_ok {x : Staged} (h : s.publish p here m = (.ok x, m')) :
    ∃ m₁ m₂, (if p.specOnly then x.libEntries = 0 ∧ m₁.disk = m.disk
        else s.copyLib p here m.disk = (.ok x.libEntries, m₁.disk)) ∧
      s.copyBin p here m₁ = (.ok x.binFiles, m₂) ∧
      s.copyDescriptor p here m₂ = (.ok x.descriptor, m') ∧ x.package = p.fullName := by
  rw [publish] at h
  split at h
  · rename_i hspec
    obtain ⟨n, m₁, hn, h⟩ := bind_eq_ok_iff.1 h
    obtain ⟨rfl, rfl⟩ := ok_inj hn
    obtain ⟨bins, m₂, hbins, h⟩ := bind_eq_ok_iff.1 h
    obtain ⟨name, m₃, hname, h⟩ := bind_eq_ok_iff.1 h
    obtain ⟨rfl, rfl⟩ := ok_inj h
    exact ⟨_, m₂, by simp [hspec], hbins, hname, rfl⟩
  · rename_i hspec
    obtain ⟨⟨⟩, m₁, hnote, h⟩ := bind_eq_ok_iff.1 h
    obtain ⟨hdisk, -⟩ := Work.note_eq_ok hnote
    obtain ⟨n, m₂, hlib, h⟩ := bind_eq_ok_iff.1 h
    obtain ⟨d, hd, rfl⟩ := Files.lift_eq_ok_iff.1 hlib
    obtain ⟨bins, m₃, hbins, h⟩ := bind_eq_ok_iff.1 h
    obtain ⟨name, m₄, hname, h⟩ := bind_eq_ok_iff.1 h
    obtain ⟨rfl, rfl⟩ := ok_inj h
    exact ⟨_, m₃, by simpa [hspec] using hdisk ▸ hd, hbins, hname, rfl⟩

variable {r : Reservation}

theorem apply_stage_eq_ok {o : Outcome} (h : s.apply r (.stage p) here w = (.ok o, w')) :
    ∃ w₁ x, s.obtain p here w = (.ok (), w₁) ∧
      s.publish p here w₁.machine = (.ok x, w'.machine) ∧ o = .staged x := by
  obtain ⟨⟨⟩, w₁, hobtain, h⟩ := bind_eq_ok_iff.1 h
  obtain ⟨x, w₂, hpublish, h⟩ := bind_eq_ok_iff.1 h
  obtain ⟨m, hm, rfl⟩ := Work.lift_eq_ok_iff.1 hpublish
  obtain ⟨ho, rfl⟩ := ok_inj h
  exact ⟨w₁, x, hobtain, hm, ho.symm⟩

theorem apply_skip (s : Stager) (r : Reservation) (p : Package) (descriptor : String) (w : World) :
    ∃ m', s.apply r (.skip p descriptor) here w =
      (.ok (.skipped p.fullName), { w with machine := m' }) ∧ w.machine.OnlyLogged m' :=
  ⟨_, rfl, rfl, rfl⟩

/-- Actions are carried out to the end exactly where the first one is and the others are after
it. -/
theorem applyAll_cons_eq_ok {a : Action} {rest : List Action} {os : List Outcome}
    (h : s.applyAll r (a :: rest) here w = (.ok (os, none), w')) :
    ∃ o w₁ more, s.apply r a here w = (.ok o, w₁) ∧
      s.applyAll r rest here w₁ = (.ok (more, none), w') ∧ os = o :: more := by
  rw [applyAll] at h
  obtain ⟨x, w₁, hx, h⟩ := bind_eq_ok_iff.1 h
  rw [attempt_apply] at hx
  obtain ⟨hx, hw₁⟩ := Prod.mk.inj hx
  obtain rfl := Except.ok.inj hx
  cases ho : (s.apply r a here w).1 with
  | error f =>
    rw [ho] at h
    simp at h
  | ok o =>
    rw [ho] at h
    obtain ⟨⟨more, fault⟩, w₂, hmore, h⟩ := bind_eq_ok_iff.1 h
    obtain ⟨hos, rfl⟩ := ok_inj h
    obtain ⟨rfl, rfl⟩ := Prod.mk.inj hos
    exact ⟨o, w₁, more, Prod.ext ho hw₁, hmore, rfl⟩

theorem applyAll_cons_of_ok {a : Action} {rest : List Action} {o : Outcome} {w₁ : World}
    {more : List Outcome} {fault : Option Fault} (ha : s.apply r a here w = (.ok o, w₁))
    (h : s.applyAll r rest here w₁ = (.ok (more, fault), w')) :
    s.applyAll r (a :: rest) here w = (.ok (o :: more, fault), w') := by
  have hattempt : ((s.apply r a).attempt : Run _) here w = (.ok (.ok o), w₁) := by
    rw [attempt_apply, ha]
  rw [applyAll, bind_apply_ok hattempt]
  simp only
  rw [bind_apply_ok h]
  rfl

/-- The packages that some actions stage, each with the disk right after it was installed. -/
def stagings (s : Stager) (r : Reservation) (here : Location) :
    List Action → World → List (Package × Disk)
  | [], _ => []
  | a :: rest, w =>
    match s.apply r a here w with
    | (.error _, _) => []
    | (.ok _, w') =>
      match a with
      | .skip .. => s.stagings r here rest w'
      | .stage p => (p, (s.obtain p here w).2.machine.disk) :: s.stagings r here rest w'

/-- Where every action is carried out, the packages are those of the actions that are no skips. -/
theorem fst_stagings {actions : List Action} {os : List Outcome}
    (h : s.applyAll r actions here w = (.ok (os, none), w')) :
    (s.stagings r here actions w).map (·.1) = (actions.filter (!·.isSkip)).map Action.package := by
  induction actions generalizing w os with
  | nil => rfl
  | cons a rest ih =>
    obtain ⟨o, w₁, more, ha, hrest, -⟩ := applyAll_cons_eq_ok h
    rw [stagings, ha]
    cases a with
    | skip => exact ih hrest
    | stage p => exact congrArg (p :: ·) (ih hrest)

end Stager

namespace Job
variable {j : Job} {w w' : World}

theorem carryOut_eq_ok {actions : List Action} {report : Report}
    (h : j.carryOut actions here w = (.ok report, w')) :
    ∃ r m₁ w₂,
      j.stager.reserve j.placeholders here w.machine = (.ok r, m₁) ∧
      j.stager.applyAll r actions here { w with machine := m₁ } =
        (.ok (report.outcomes, none), w₂) ∧
      Stager.writeStubs j.stubs here w₂.machine = (.ok report.loaderStubs, w'.machine) ∧
      w'.calls = w₂.calls ∧ report.placeholders = r.created := by
  obtain ⟨r, w₁, hreserve, h⟩ := bind_eq_ok_iff.1 h
  obtain ⟨m₁, hm₁, rfl⟩ := Work.lift_eq_ok_iff.1 hreserve
  obtain ⟨⟨outcomes, fault⟩, w₂, hacts, h⟩ := bind_eq_ok_iff.1 h
  cases fault with
  | some f => simp at h
  | none =>
    obtain ⟨stubs, w₃, hstubs, h⟩ := bind_eq_ok_iff.1 h
    obtain ⟨m₃, hm₃, rfl⟩ := Work.lift_eq_ok_iff.1 hstubs
    obtain ⟨rfl, rfl⟩ := ok_inj h
    exact ⟨r, m₁, w₂, hm₁, hacts, hm₃, rfl, rfl⟩

/-- A run that succeeds goes through planning, reserving, acting and writing the stubs. -/
theorem run_eq_ok {report : Report} (h : j.run here w = (.ok report, w')) :
    ∃ r m₁ w₂,
      j.stager.reserve j.placeholders here w.machine = (.ok r, m₁) ∧
      j.stager.applyAll r
          (plan j.packages (w.machine.disk.namesAt here j.stager.layout.specsDir)) here
          { w with machine := m₁ } = (.ok (report.outcomes, none), w₂) ∧
      Stager.writeStubs j.stubs here w₂.machine = (.ok report.loaderStubs, w'.machine) ∧
      w'.calls = w₂.calls ∧ report.placeholders = r.created := by
  obtain ⟨actions, w₀, hplan, h⟩ := bind_eq_ok_iff.1 h
  obtain ⟨m₀, hm₀, rfl⟩ := Work.lift_eq_ok_iff.1 hplan
  obtain ⟨d, hd, rfl⟩ := Files.lift_eq_ok_iff.1 hm₀
  rw [planFor_apply] at hd
  obtain ⟨rfl, rfl⟩ := ok_inj hd
  exact carryOut_eq_ok h

theorem run_of_reserve {r : Reservation} {m : Machine}
    (hreserve : j.stager.reserve j.placeholders here w.machine = (.ok r, m)) :
    j.run here w = ((do
      let (outcomes, fault) ← j.stager.applyAll r
        (plan j.packages (w.machine.disk.namesAt here j.stager.layout.specsDir))
      match fault with
      | some f => .fail f
      | none =>
        let loaderStubs ← (Stager.writeStubs j.stubs : Work _)
        return { placeholders := r.created, outcomes, loaderStubs }) : Run Report)
      here { w with machine := m } := by
  have hplan : (liftM (liftM (planFor j.packages j.stager.layout.specsDir) : Work _) : Run _)
      here w =
        (.ok (plan j.packages (w.machine.disk.namesAt here j.stager.layout.specsDir)), w) := by
    rw [Work.lift_apply, Files.lift_apply, planFor_apply]
  have hreserve' : (liftM (j.stager.reserve j.placeholders) : Run _) here w =
      (.ok r, { w with machine := m }) := Work.lift_eq_ok_iff.2 ⟨m, hreserve, rfl⟩
  rw [run, bind_apply_ok hplan, carryOut]
  exact bind_apply_ok hreserve'

theorem run_of_ok {r : Reservation} {m₁ m₃ : Machine} {w₂ : World} {os : List Outcome}
    {stubs : List Path}
    (hreserve : j.stager.reserve j.placeholders here w.machine = (.ok r, m₁))
    (hacts : j.stager.applyAll r
        (plan j.packages (w.machine.disk.namesAt here j.stager.layout.specsDir)) here
        { w with machine := m₁ } = (.ok (os, none), w₂))
    (hstubs : Stager.writeStubs j.stubs here w₂.machine = (.ok stubs, m₃)) :
    j.run here w = (.ok ⟨r.created, os, stubs⟩, { w₂ with machine := m₃ }) := by
  have hstubs' : (liftM (Stager.writeStubs j.stubs) : Run _) here w₂ =
      (.ok stubs, { w₂ with machine := m₃ }) := Work.lift_eq_ok_iff.2 ⟨m₃, hstubs, rfl⟩
  rw [run_of_reserve hreserve, bind_apply_ok hacts]
  simp only
  rw [bind_apply_ok hstubs']
  rfl

end Job

end Staging

end GemStaging
