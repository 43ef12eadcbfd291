import GemStaging.Command.Running
import GemStaging.Proofs.Disk.Plain
import GemStaging.Proofs.Staging.Growth
import GemStaging.Proofs.Staging.Steps

/-!
A dry run says what the run would do. Both read the manifest and the descriptors in the same way
(`stage_eq`), and the plan is made before anything is changed: what the run writes, its
placeholders among it, comes too late to turn a package that is to be staged into one that is
skipped.
-/

namespace GemStaging

open Effect

variable {here : Location}

instance : IsPreorder Machine Machine.OnlyLogged where
  refl _ := ⟨rfl, rfl⟩
  trans _ _ _ := Machine.OnlyLogged.trans

theorem Files.lift_unmoved {α : Type} {e : Files α} (h : Moves Eq here e) :
    Moves Eq here (liftM e : Work α) := by
  intro m
  rw [Files.lift_apply, ← h m.disk]

theorem Access.readText_unmoved (p : Path) : Moves Eq here (Access.readText p) := by
  refine .bind (.still fun _ => rfl) fun loc => .bind .get fun d => ?_
  split
  · exact .fail _
  · refine .ite (.fail _) ?_
    split
    · exact .pure _
    · exact .fail _

namespace Config

theorem baseDirOf_unmoved (manifest : Path) : Moves Eq here (baseDirOf manifest) := by
  refine .bind .place fun _ => .bind .get fun d => ?_
  split
  · exact .pure _
  · exact .pure _

theorem load_onlyLogged (path? : Option Path) (overrides : List (String × String)) :
    Moves Machine.OnlyLogged here (load path? overrides) := by
  have still {α : Type} {e : Files α} (h : Moves Eq here e) :
      Moves Machine.OnlyLogged here (liftM e : Work α) := (Files.lift_unmoved h).of_unmoved
  rw [load]
  refine .bind .place fun place => .bind (still (.still fun _ => rfl)) fun found => .ite ?_ ?_
  · refine .bind_of (.fail _) ?_
    intro m x m' h
    cases (Prod.mk.inj h).1
  · refine .bind (still ((Access.readText_unmoved _).mapError _)) fun text => ?_
    refine .bind (.ofExcept _) fun manifest => ?_
    refine .bind (still (baseDirOf_unmoved _)) fun baseDir => ?_
    refine .bind (.ofExcept _) fun properties => ?_
    exact .bind (fun m => ⟨rfl, rfl⟩) fun _ => .pure _

end Config

namespace Staging

inductive Action.Predicts : Action → Outcome → Prop where
  | skip (p : Package) (descriptor : String) : Predicts (.skip p descriptor) (.skipped p.fullName)
  | stage (p : Package) (x : Staged) : x.package = p.fullName → Predicts (.stage p) (.staged x)

namespace Stager
variable {s : Stager} {r : Reservation} {w w' : World}

theorem apply_predicted {a : Action} {o : Outcome} (h : s.apply r a here w = (.ok o, w')) :
    a.Predicts o := by
  cases a with
  | skip p descriptor =>
    obtain ⟨m, hskip, -⟩ := apply_skip s r p descriptor w
    obtain ⟨rfl, -⟩ := ok_inj (hskip.symm.trans h)
    exact .skip p descriptor
  | stage p =>
    obtain ⟨w₁, x, -, hpublish, rfl⟩ := apply_stage_eq_ok h
    obtain ⟨m₁, m₂, -, -, -, hpackage⟩ := publish_eq_ok hpublish
    exact .stage p x hpackage

theorem applyAll_predicted {actions : List Action} {os : List Outcome}
    (h : s.applyAll r actions here w = (.ok (os, none), w')) :
    List.Forall₂ Action.Predicts actions os := by
  induction actions generalizing w os with
  | nil =>
    obtain ⟨hos, -⟩ := ok_inj h
    obtain ⟨rfl, -⟩ := Prod.mk.inj hos
    exact .nil
  | cons a rest ih =>
    obtain ⟨o, w₁, more, ha, hrest, rfl⟩ := applyAll_cons_eq_ok h
    exact .cons (apply_predicted ha) (ih hrest)

end Stager

theorem Action.Predicts.isStaged {a : Action} {o : Outcome} (h : a.Predicts o) :
    o.isStaged = !a.isSkip := by
  cases h <;> rfl

theorem staged_of_predicted {actions : List Action} {report : Report}
    (h : List.Forall₂ Action.Predicts actions report.outcomes) :
    report.staged = (actions.filter (!·.isSkip)).length := by
  rw [Report.staged]
  generalize report.outcomes = os at h
  induction h with
  | nil => rfl
  | cons ha _ ih =>
    rw [List.filter_cons, List.filter_cons, ha.isStaged]
    split
    · exact congrArg (· + 1) ih
    · exact ih

theorem staged_add_skipped (report : Report) :
    report.staged + report.skipped = report.outcomes.length :=
  (List.length_eq_length_filter_add _).symm

end Staging

namespace Command

open Staging

variable {s : Surroundings} {config : Option Path} {properties : List (String × String)} {w : World}

def planning (config : Option Path) (properties : List (String × String)) :
    Run (Config × List Package × List Action) := do
  let c ← (Config.load config properties : Work Config)
  let packages ← Effect.ofExcept c.packages
  let actions ← ((planFor packages c.layout.specsDir : Work _) : Run _)
  return (c, packages, actions)

def planOutput (json : Bool) (actions : List Action) : Output :=
  .text (if json then (Text.Json.array (actions.map actionJson)).render ++ "\n"
    else planText actions)

def reportOutput (json : Bool) (report : Report) : Output :=
  .text (if json then (reportJson report).render ++ "\n" else reportText report)

theorem stage_eq (s : Surroundings) (config : Option Path) (properties : List (String × String))
    (dryRun json : Bool) :
    stage s config properties dryRun json = (do
      let x ← planning config properties
      if dryRun then return planOutput json x.2.2
      else return reportOutput json (← (jobOf s x.1 x.2.1).carryOut x.2.2)) := by
  simp only [stage, planning, Effect.bind_assoc]
  rfl

/-- Between the worlds nothing happened but that lines were logged. -/
def OnlyLogged (w w' : World) : Prop := w.machine.OnlyLogged w'.machine ∧ w'.calls = w.calls

instance : IsPreorder World OnlyLogged where
  refl _ := ⟨⟨rfl, rfl⟩, rfl⟩
  trans _ _ _ h h' := ⟨h.1.trans h'.1, h'.2.trans h.2⟩

theorem planning_onlyLogged : Moves OnlyLogged here (planning config properties) := by
  have lift {α : Type} {e : Work α} (h : Moves Machine.OnlyLogged here e) :
      Moves OnlyLogged here (liftM e : Run α) := fun w => ⟨h w.machine, rfl⟩
  refine .bind (lift (Config.load_onlyLogged _ _)) fun c => .bind (.ofExcept _) fun packages => ?_
  refine .bind (lift (Files.lift_unmoved fun d => ?_).of_unmoved) fun actions => .pure _
  rw [planFor_apply]

theorem planning_eq_ok {c : Config} {packages : List Package} {actions : List Action} {w' : World}
    (h : planning config properties here w = (.ok (c, packages, actions), w')) :
    (Config.load config properties here w.machine).1 = .ok c ∧ c.packages = .ok packages ∧
      actions = plan packages (w.machine.disk.namesAt here c.layout.specsDir) := by
  obtain ⟨c', w₁, hc, h⟩ := bind_eq_ok_iff.1 h
  obtain ⟨m, hload, rfl⟩ := Work.lift_eq_ok_iff.1 hc
  obtain ⟨packages', w₂, hresolved, h⟩ := bind_eq_ok_iff.1 h
  obtain ⟨hpackages, rfl⟩ := Prod.mk.inj hresolved
  obtain ⟨actions', w₃, hactions, h⟩ := bind_eq_ok_iff.1 h
  obtain ⟨m', hm', rfl⟩ := Work.lift_eq_ok_iff.1 hactions
  obtain ⟨d, hd, rfl⟩ := Files.lift_eq_ok_iff.1 hm'
  have hread : w.machine.OnlyLogged m := (Config.load_onlyLogged _ _).of_eq hload
  rw [planFor_apply, hread.1] at hd
  obtain ⟨rfl, -⟩ := ok_inj hd
  have hx := (ok_inj h).1
  simp only [Prod.mk.injEq] at hx
  obtain ⟨rfl, rfl, rfl⟩ := hx
  exact ⟨by rw [hload], hpackages, rfl⟩

structure Foretells (packages : List Package) (actions : List Action) (report : Report) : Prop where
  order : actions.map Action.package = packages
  outcomes : List.Forall₂ Action.Predicts actions report.outcomes
  staged : report.staged = (actions.filter (!·.isSkip)).length
  total : report.staged + report.skipped = packages.length

theorem foretells_of_carryOut {j : Job} {packages : List Package} {installed : List String}
    {report : Report} {w' : World}
    (h : j.carryOut (plan packages installed) here w = (.ok report, w')) :
    Foretells packages (plan packages installed) report := by
  obtain ⟨r, m, w₁, -, hacts, -⟩ := Job.carryOut_eq_ok h
  have houtcomes := Stager.applyAll_predicted hacts
  refine ⟨?_, houtcomes, staged_of_predicted houtcomes, ?_⟩
  · rw [plan, List.map_map]
    exact List.map_id'' (fun p => Action.package_decide) packages
  · rw [staged_add_skipped, ← houtcomes.length_eq, plan, List.length_map]

/-- A dry run changes nothing, and it says what the run would do: if the run from the same world
succeeds, the plan that was printed foretells what is reported. -/
theorem stage_foretold (s : Surroundings) (config : Option Path)
    (properties : List (String × String)) (here : Location) (w : World) :
    (∀ json, OnlyLogged w (stage s config properties true json here w).2) ∧
    ∀ json output, (stage s config properties false json here w).1 = .ok output →
      ∃ c packages actions report, (Config.load config properties here w.machine).1 = .ok c ∧
        c.packages = .ok packages ∧
        actions = plan packages (w.machine.disk.namesAt here c.layout.specsDir) ∧
        (∀ json, (stage s config properties true json here w).1 = .ok (planOutput json actions)) ∧
        output = reportOutput json report ∧ Foretells packages actions report := by
  constructor
  · intro json
    rw [stage_eq]
    have hdry : Moves OnlyLogged here (do
        let x ← planning config properties
        return planOutput json x.2.2) := .bind planning_onlyLogged fun _ => .pure _
    exact hdry w
  · intro json output h
    rw [stage_eq] at h
    obtain ⟨⟨c, packages, actions⟩, w₀, hplanning, hrun⟩ := bind_eq_ok_iff.1 (Prod.ext h rfl)
    simp only [Bool.false_eq_true, if_false] at hrun
    obtain ⟨report, w₁, hreport, houtput⟩ := bind_eq_ok_iff.1 hrun
    obtain ⟨hload, hpackages, rfl⟩ := planning_eq_ok hplanning
    refine ⟨c, packages, _, report, hload, hpackages, rfl, ?_, (ok_inj houtput).1.symm,
      foretells_of_carryOut hreport⟩
    intro json
    rw [stage_eq, bind_apply_ok hplanning]
    rfl

/-- A manifest whose placeholder looks like the descriptor of its package. -/
def sampleManifest : String :=
  "packages:\n- name: a\n  version: '1'\nlayout:\n  build_dir: t\n  default_specs: s\n"
    ++ "placeholders:\n- t/rubygems/specifications/a-1.gemspec\n"

def sampleSurroundings : Surroundings where
  programs := ⟨fun _ _ _ d => (.ok ⟨.exited 0, [], []⟩, d)⟩
  transport := ⟨fun _ _ => .error (.io "offline")⟩
  home := none

def sampleWorld : World where
  machine.disk := Disk.diskOf [([], "gemstage.yaml", .file (Text.encode sampleManifest) .data),
    ([], "t", .directory), (["t"], "a-1.gem", .file [] .data)]

theorem stage_foretold_sample :
    ∃ output, (stage sampleSurroundings none [] false false [] sampleWorld).1 = .ok output ∧
      ∃ c packages actions report, (Config.load none [] [] sampleWorld.machine).1 = .ok c ∧
        c.packages = .ok packages ∧
        actions = plan packages (sampleWorld.machine.disk.namesAt [] c.layout.specsDir) ∧
        (∀ json, (stage sampleSurroundings none [] true json [] sampleWorld).1 =
          .ok (planOutput json actions)) ∧
        output = reportOutput false report ∧ Foretells packages actions report := by
  have hends : (stage sampleSurroundings none [] false false [] sampleWorld).1.isOk := by
    decide +kernel
  cases houtput : (stage sampleSurroundings none [] false false [] sampleWorld).1 with
  | error f =>
    rw [houtput] at hends
    cases hends
  | ok output =>
    exact ⟨output, rfl, (stage_foretold sampleSurroundings none [] [] sampleWorld).2 false output
      houtput⟩

end Command

end GemStaging
