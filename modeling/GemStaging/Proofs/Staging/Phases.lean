import GemStaging.Proofs.Staging.Steps

/-!
The steps in which a package is staged: it is fetched and installed, and then its libraries, its
executables and its descriptor are copied. A step that fails ends the staging with its own fault
(`Stager.Fails`), and the first staging that fails ends the run that it is part of (`Job.Course`).
-/

namespace GemStaging

open Effect

namespace Staging

namespace Stager
variable {s : Stager} {here : Location} {p : Package} {w w' : World} {m : Machine}

def fetchCall (s : Stager) (p : Package) : Call := .fetch p s.layout.buildDir

def installCall (s : Stager) (archive : Path) : Call := .install archive s.layout.gemHome

/-- What the fetcher does for a package: it returns the path of the archive, or a fault. -/
def fetched (s : Stager) (here : Location) (p : Package) (w : World) :
    Except Fault Path × Machine :=
  s.fetch (w.calls ++ [s.fetchCall p]) p s.layout.buildDir here w.machine

/-- What the installer does next, on the machine that the fetcher left. -/
def installed (s : Stager) (here : Location) (p : Package) (w : World) (archive : Path) :
    Except Fault Unit × Machine :=
  s.install (w.calls ++ [s.fetchCall p, s.installCall archive]) archive s.layout.gemHome here
    (s.fetched here p w).2

/-- The library step: nothing where only the descriptor of the package is wanted. -/
def merging (s : Stager) (p : Package) : Work Nat :=
  if p.specOnly then pure 0
  else do
    Work.note .info source ("setup gem " ++ p.fullName)
    (s.copyLib p : Files Nat)

theorem publish_eq (s : Stager) (p : Package) :
    s.publish p = (do
      let libEntries ← s.merging p
      let binFiles ← s.copyBin p
      let descriptor ← s.copyDescriptor p
      return { package := p.fullName, libEntries, binFiles, descriptor }) := by
  rw [publish, merging]
  split
  · rfl
  · rw [Effect.bind_assoc]

theorem obtain_of_fetched_error {f : Fault} (h : s.fetched here p w = (.error f, m)) :
    s.obtain p here w = (.error f, ⟨m, w.calls ++ [s.fetchCall p]⟩) := by
  refine bind_apply_error (Prod.ext ?_ ?_)
  · exact (Prod.mk.inj h).1
  · exact congrArg (World.mk · _) (Prod.mk.inj h).2

theorem obtain_of_fetched {archive : Path} (h : (s.fetched here p w).1 = .ok archive) :
    s.obtain p here w =
      ((s.installed here p w archive).1.mapError fun e =>
          .installFailed p.name p.version e.message,
        ⟨(s.installed here p w archive).2,
          w.calls ++ [s.fetchCall p, s.installCall archive]⟩) := by
  have hfetch : Run.call (s.fetchCall p) (fun calls => s.fetch calls p s.layout.buildDir) here w =
      (.ok archive, ⟨(s.fetched here p w).2, w.calls ++ [s.fetchCall p]⟩) := Prod.ext h rfl
  refine (bind_apply_ok hfetch).trans ?_
  rw [Run.call_apply, fst_mapError, snd_mapError, List.append_assoc]
  rfl

/-- How the staging of a package fails: with the fault of the step that failed, in the world that
this step left. What the installer says is put into words that name the package. -/
inductive Fails (s : Stager) (here : Location) (p : Package) (w : World) :
    Fault → World → Prop where
  | fetch {f : Fault} {m : Machine} :
      s.fetched here p w = (.error f, m) → Fails s here p w f ⟨m, w.calls ++ [s.fetchCall p]⟩
  | install {archive : Path} {e : Fault} {m : Machine} :
      (s.fetched here p w).1 = .ok archive → s.installed here p w archive = (.error e, m) →
      Fails s here p w (.installFailed p.name p.version e.message)
        ⟨m, w.calls ++ [s.fetchCall p, s.installCall archive]⟩
  | lib {w₁ : World} {f : Fault} {m : Machine} :
      s.obtain p here w = (.ok (), w₁) → s.merging p here w₁.machine = (.error f, m) →
      Fails s here p w f { w₁ with machine := m }
  | bin {w₁ : World} {n : Nat} {m₁ : Machine} {f : Fault} {m : Machine} :
      s.obtain p here w = (.ok (), w₁) → s.merging p here w₁.machine = (.ok n, m₁) →
      s.copyBin p here m₁ = (.error f, m) → Fails s here p w f { w₁ with machine := m }
  | descriptor {w₁ : World} {n k : Nat} {m₁ m₂ : Machine} {f : Fault} {m : Machine} :
      s.obtain p here w = (.ok (), w₁) → s.merging p here w₁.machine = (.ok n, m₁) →
      s.copyBin p here m₁ = (.ok k, m₂) → s.copyDescriptor p here m₂ = (.error f, m) →
      Fails s here p w f { w₁ with machine := m }

/-- How a package is staged: it is obtained and its libraries are merged, then its executables and
at last its descriptor are copied. The disks are those right after the package was installed and
right before its descriptor is copied. -/
inductive Stages (s : Stager) (here : Location) (p : Package) (w : World) :
    Disk → Disk → Staged → World → Prop where
  | mk {w₁ : World} {n k : Nat} {m₁ m₂ m₃ : Machine} {name : String} :
      s.obtain p here w = (.ok (), w₁) → s.merging p here w₁.machine = (.ok n, m₁) →
      s.copyBin p here m₁ = (.ok k, m₂) → s.copyDescriptor p here m₂ = (.ok name, m₃) →
      Stages s here p w w₁.machine.disk m₂.disk ⟨p.fullName, n, k, name⟩ { w₁ with machine := m₃ }

variable {r : Reservation} {f : Fault}

theorem fails_of_obtain (h : s.obtain p here w = (.error f, w')) : s.Fails here p w f w' := by
  obtain ⟨f', m, hfetched⟩ | ⟨archive, hfetched⟩ :
      (∃ f m, s.fetched here p w = (.error f, m)) ∨ ∃ a, (s.fetched here p w).1 = .ok a := by
    cases hx : s.fetched here p w with
    | mk x m =>
      cases x with
      | error f => exact .inl ⟨f, m, rfl⟩
      | ok archive => exact .inr ⟨archive, rfl⟩
  · rw [obtain_of_fetched_error hfetched] at h
    obtain ⟨⟨⟩, rfl⟩ := Prod.mk.inj h
    exact .fetch hfetched
  · rw [obtain_of_fetched hfetched] at h
    obtain ⟨hf, rfl⟩ := Prod.mk.inj h
    cases hx : (s.installed here p w archive).1 with
    | error e =>
      rw [hx] at hf
      obtain rfl := Except.error.inj hf
      exact .install hfetched (Prod.ext hx rfl)
    | ok =>
      rw [hx] at hf
      cases hf

theorem apply_stage_of_obtain {w₁ : World} (h : s.obtain p here w = (.ok (), w₁)) :
    s.apply r (.stage p) here w =
      ((s.publish p here w₁.machine).1.map .staged,
        { w₁ with machine := (s.publish p here w₁.machine).2 }) := by
  rw [apply, bind_apply_ok h]
  obtain ⟨f, m, hpublish⟩ | ⟨x, m, hpublish⟩ := (s.publish p).error_or_ok here w₁.machine
  all_goals
    rw [hpublish]
    have hlift : (liftM (s.publish p) : Run Staged) here w₁ = _ := Work.lift_apply (s.publish p) w₁
    rw [hpublish] at hlift
  · exact bind_apply_error hlift
  · exact bind_apply_ok hlift

theorem stages_of_apply {o : Outcome} (h : s.apply r (.stage p) here w = (.ok o, w')) :
    ∃ installed ready y, o = .staged y ∧ s.Stages here p w installed ready y w' := by
  obtain ⟨⟨⟩, w₁, hobtain, -⟩ := bind_eq_ok_iff.1 h
  rw [apply_stage_of_obtain hobtain] at h
  obtain ⟨ho, rfl⟩ := Prod.mk.inj h
  cases hpublish : s.publish p here w₁.machine with
  | mk x m₃ =>
    rw [hpublish] at ho
    cases x with
    | error f => cases ho
    | ok y =>
      obtain rfl := Except.ok.inj ho
      rw [publish_eq] at hpublish
      obtain ⟨n, m₁, hlib, hpublish⟩ := bind_eq_ok_iff.1 hpublish
      obtain ⟨k, m₂, hbin, hpublish⟩ := bind_eq_ok_iff.1 hpublish
      obtain ⟨name, m₃, hname, hpublish⟩ := bind_eq_ok_iff.1 hpublish
      obtain ⟨rfl, rfl⟩ := ok_inj hpublish
      exact ⟨_, _, _, rfl, .mk hobtain hlib hbin hname⟩

/-- A staging that fails does so at one of its steps, and one of whose steps fails does too. -/
theorem apply_stage_eq_error_iff :
    s.apply r (.stage p) here w = (.error f, w') ↔ s.Fails here p w f w' := by
  constructor
  · intro h
    obtain ⟨f', w₁, hobtain⟩ | ⟨⟨⟩, w₁, hobtain⟩ := (s.obtain p).error_or_ok here w
    · rw [apply, bind_apply_error hobtain] at h
      obtain ⟨⟨⟩, rfl⟩ := Prod.mk.inj h
      exact fails_of_obtain hobtain
    rw [apply_stage_of_obtain hobtain, publish_eq] at h
    obtain ⟨f', m₁, hlib⟩ | ⟨n, m₁, hlib⟩ := (s.merging p).error_or_ok here w₁.machine
    · rw [bind_apply_error hlib] at h
      obtain ⟨⟨⟩, rfl⟩ := Prod.mk.inj h
      exact .lib hobtain hlib
    obtain ⟨f', m₂, hbin⟩ | ⟨k, m₂, hbin⟩ := (s.copyBin p).error_or_ok here m₁
    · rw [bind_apply_ok hlib, bind_apply_error hbin] at h
      obtain ⟨⟨⟩, rfl⟩ := Prod.mk.inj h
      exact .bin hobtain hlib hbin
    obtain ⟨f', m₃, hname⟩ | ⟨name, m₃, hname⟩ := (s.copyDescriptor p).error_or_ok here m₂
    · rw [bind_apply_ok hlib, bind_apply_ok hbin, bind_apply_error hname] at h
      obtain ⟨⟨⟩, rfl⟩ := Prod.mk.inj h
      exact .descriptor hobtain hlib hbin hname
    · rw [bind_apply_ok hlib, bind_apply_ok hbin, bind_apply_ok hname] at h
      cases (Prod.mk.inj h).1
  · intro h
    cases h with
    | fetch hfetched =>
      rw [apply, bind_apply_error (obtain_of_fetched_error hfetched)]
    | @install archive e m hfetched hinstalled =>
      have hobtain := obtain_of_fetched hfetched
      rw [hinstalled] at hobtain
      rw [apply, bind_apply_error hobtain]
    | lib hobtain hlib =>
      rw [apply_stage_of_obtain hobtain, publish_eq, bind_apply_error hlib]
      rfl
    | bin hobtain hlib hbin =>
      rw [apply_stage_of_obtain hobtain, publish_eq, bind_apply_ok hlib, bind_apply_error hbin]
      rfl
    | descriptor hobtain hlib hbin hname =>
      rw [apply_stage_of_obtain hobtain, publish_eq, bind_apply_ok hlib, bind_apply_ok hbin,
        bind_apply_error hname]
      rfl

theorem applyAll_cons_of_error {a : Action} {rest : List Action}
    (ha : s.apply r a here w = (.error f, w')) :
    s.applyAll r (a :: rest) here w = (.ok ([], some f), w') := by
  have hattempt : ((s.apply r a).attempt : Run _) here w = (.ok (.error f), w') := by
    rw [attempt_apply, ha]
  rw [applyAll, bind_apply_ok hattempt]
  rfl

theorem applyAll_append_of_ok {before after : List Action} {os more : List Outcome} {w₁ : World}
    {fault : Option Fault} (hbefore : s.applyAll r before here w = (.ok (os, none), w₁))
    (hafter : s.applyAll r after here w₁ = (.ok (more, fault), w')) :
    s.applyAll r (before ++ after) here w = (.ok (os ++ more, fault), w') := by
  induction before generalizing w os with
  | nil =>
    obtain ⟨hos, rfl⟩ := ok_inj hbefore
    obtain ⟨rfl, -⟩ := Prod.mk.inj hos
    exact hafter
  | cons a rest ih =>
    obtain ⟨o, w₂, os, ha, hrest, rfl⟩ := applyAll_cons_eq_ok hbefore
    exact applyAll_cons_of_ok ha (ih hrest)

theorem applyAll_cases (s : Stager) (r : Reservation) (here : Location) (actions : List Action)
    (w : World) :
    (∃ os w', s.applyAll r actions here w = (.ok (os, none), w')) ∨
      ∃ before p after os w₁ f w', actions = before ++ .stage p :: after ∧
        s.applyAll r before here w = (.ok (os, none), w₁) ∧ s.Fails here p w₁ f w' ∧
        s.applyAll r actions here w = (.ok (os, some f), w') := by
  induction actions generalizing w with
  | nil => exact .inl ⟨[], w, rfl⟩
  | cons a rest ih =>
    obtain ⟨f, w', ha⟩ | ⟨o, w₁, ha⟩ := (s.apply r a).error_or_ok here w
    · cases a with
      | skip p name =>
        obtain ⟨m, hskip, -⟩ := apply_skip s r p name w
        exact absurd ha (ne_error_of_ok hskip)
      | stage p =>
        exact .inr ⟨[], p, rest, [], w, f, w', rfl, rfl, apply_stage_eq_error_iff.1 ha,
          applyAll_cons_of_error ha⟩
    · obtain ⟨os, w', hrest⟩ | ⟨before, p, after, os, w₂, f, w', rfl, hbefore, hfails, hrest⟩ :=
        ih w₁
      · exact .inl ⟨o :: os, w', applyAll_cons_of_ok ha hrest⟩
      · exact .inr ⟨a :: before, p, after, o :: os, w₂, f, w', rfl,
          applyAll_cons_of_ok ha hbefore, hfails, applyAll_cons_of_ok ha hrest⟩

end Stager

namespace Job
variable {j : Job} {here : Location} {w w₁ w' : World} {f : Fault}

/-- What a run is going to do, as the descriptors stand when it begins. -/
def planned (j : Job) (here : Location) (w : World) : List Action :=
  plan j.packages (w.machine.disk.namesAt here j.stager.layout.specsDir)

/-- The run reserves its places, carries out these actions, and is in the world `w₁` then. -/
def Reaches (j : Job) (here : Location) (w : World) (actions : List Action) (w₁ : World) : Prop :=
  ∃ r m os, j.stager.reserve j.placeholders here w.machine = (.ok r, m) ∧
    j.stager.applyAll r actions here { w with machine := m } = (.ok (os, none), w₁)

inductive Course (j : Job) (here : Location) (w : World) : Prop where
  | unreserved {f : Fault} {m : Machine} :
      j.stager.reserve j.placeholders here w.machine = (.error f, m) →
      j.run here w = (.error f, { w with machine := m }) → Course j here w
  | unstaged {before after : List Action} {p : Package} {w₁ : World} {f : Fault} {w' : World} :
      j.planned here w = before ++ .stage p :: after → j.Reaches here w before w₁ →
      j.stager.Fails here p w₁ f w' → j.run here w = (.error f, w') → Course j here w
  | unwritten {w₁ : World} {f : Fault} {m : Machine} :
      j.Reaches here w (j.planned here w) w₁ →
      Stager.writeStubs j.stubs here w₁.machine = (.error f, m) →
      j.run here w = (.error f, { w₁ with machine := m }) → Course j here w
  | ended {w₁ : World} {report : Report} {m : Machine} :
      j.Reaches here w (j.planned here w) w₁ →
      Stager.writeStubs j.stubs here w₁.machine = (.ok report.loaderStubs, m) →
      j.run here w = (.ok report, { w₁ with machine := m }) → Course j here w

/-- The first staging that fails ends the run, in the world that it leaves. -/
theorem run_of_fails {before after : List Action} {p : Package}
    (hplan : j.planned here w = before ++ .stage p :: after) (hbefore : j.Reaches here w before w₁)
    (hfails : j.stager.Fails here p w₁ f w') : j.run here w = (.error f, w') := by
  obtain ⟨r, m, os, hreserve, hbefore⟩ := hbefore
  have hfailing := Stager.apply_stage_eq_error_iff (r := r).2 hfails
  have hrest : j.stager.applyAll r (.stage p :: after) here w₁ = _ :=
    Stager.applyAll_cons_of_error hfailing
  have hacts := Stager.applyAll_append_of_ok hbefore hrest
  rw [← hplan] at hacts
  rw [run_of_reserve hreserve]
  exact bind_apply_ok hacts

theorem course (j : Job) (here : Location) (w : World) : j.Course here w := by
  obtain ⟨f, m, hreserve⟩ | ⟨r, m, hreserve⟩ :=
    (j.stager.reserve j.placeholders).error_or_ok here w.machine
  · refine .unreserved hreserve ?_
    have hplan : (liftM (liftM (planFor j.packages j.stager.layout.specsDir) : Work _) : Run _)
        here w = (.ok (j.planned here w), w) := by
      rw [Work.lift_apply, Files.lift_apply, planFor_apply]
      rfl
    have hlift : (liftM (j.stager.reserve j.placeholders) : Run _) here w =
        (.error f, { w with machine := m }) := by
      rw [Work.lift_apply, hreserve]
    rw [run, bind_apply_ok hplan, carryOut]
    exact bind_apply_error hlift
  obtain ⟨os, w₁, hacts⟩ | ⟨before, p, after, os, w₁, f, w', hplan, hbefore, hfails, -⟩ :=
    j.stager.applyAll_cases r here (j.planned here w) { w with machine := m }
  · have hreaches : j.Reaches here w (j.planned here w) w₁ := ⟨r, m, os, hreserve, hacts⟩
    obtain ⟨f, m', hstubs⟩ | ⟨stubs, m', hstubs⟩ :=
      (Stager.writeStubs j.stubs).error_or_ok here w₁.machine
    · refine .unwritten hreaches hstubs ?_
      have hlift : (liftM (Stager.writeStubs j.stubs) : Run _) here w₁ =
          (.error f, { w₁ with machine := m' }) := by
        rw [Work.lift_apply, hstubs]
      rw [run_of_reserve hreserve]
      refine (bind_apply_ok hacts).trans ?_
      exact bind_apply_error hlift
    · exact .ended hreaches hstubs (run_of_ok hreserve hacts hstubs)
  · have hreaches : j.Reaches here w before w₁ := ⟨r, m, os, hreserve, hbefore⟩
    exact .unstaged hplan hreaches hfails (run_of_fails hplan hreaches hfails)

end Job

end Staging

end GemStaging
