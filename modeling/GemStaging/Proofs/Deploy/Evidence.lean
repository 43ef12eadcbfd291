import GemStaging.Proofs.Deploy.Shipping
import GemStaging.Proofs.Deploy.Verdict
import GemStaging.Proofs.Files.Sparing
import GemStaging.Proofs.Staging.Growth

/-!
The pages that a deploy cycle keeps. Each page is written down before the next one is requested and
before any of them is judged, so what is on disk when the cycle ends is every page up to the first
one that could not be had or kept (`Cycle.run_evidence`). Nothing else in a cycle touches the
results: copying to the server makes directories at most beside the hot-deploy directory.
-/

namespace GemStaging

open Effect Disk GemStaging.Path

variable {here : Location}

namespace Disk

/-- A plain disk stays plain with its current directory, and at a place it has the same file, or
none as before. -/
def Leaves (here loc : Location) (c d : Disk) : Prop :=
  c.Plain → c.get? here = some .directory →
    d.Plain ∧ d.get? here = some .directory ∧ d.file? loc = c.file? loc

instance {loc : Location} : IsPreorder Disk (Leaves here loc) where
  refl _ hc hhere := ⟨hc, hhere, rfl⟩
  trans _ _ _ h h' hc hhere := by
    obtain ⟨hc, hhere, hfile⟩ := h hc hhere
    obtain ⟨hd, hhere, hfile'⟩ := h' hc hhere
    exact ⟨hd, hhere, hfile'.trans hfile⟩

theorem leaves_of_spares {loc : Location} {region : Location → Prop} {α : Type} {e : Files α}
    (hspares : Moves (Spares region) here e) (hgrows : Moves Grows here e) (hloc : ¬ region loc) :
    Moves (Leaves here loc) here e := by
  intro c hc hhere
  obtain ⟨hd, hspared⟩ := hspares c hc
  exact ⟨hd, (hgrows c).directory hhere, (hspared loc hloc).file?_eq⟩

end Disk

namespace Deploy

/-- The deployments stand in the hot-deploy directory, and the results in places of their own
outside it. -/
structure Plan.Keepable (plan : Plan) (here : Location) : Prop where
  targets : ∀ x ∈ plan.deployments, x.target = plan.dropins / x.warName
  slashless : ∀ x ∈ plan.deployments, '/' ∉ x.name.toList
  distinct : plan.deployments.Pairwise fun x y => goal here x.result ≠ goal here y.result
  outside : ∀ x ∈ plan.deployments, ¬ goal here plan.dropins <+: goal here x.result

theorem Plan.Keepable.apart {plan : Plan} {done more : List Deployment} {d : Deployment}
    (h : plan.Keepable here) (hsplit : plan.deployments = done ++ d :: more) :
    (∀ x ∈ d :: more, ∀ y ∈ done, goal here x.result ≠ goal here y.result) ∧
      ∀ y ∈ more, goal here d.result ≠ goal here y.result := by
  have hdistinct := h.distinct
  rw [hsplit, List.pairwise_append, List.pairwise_cons] at hdistinct
  obtain ⟨-, ⟨hmore, -⟩, hdone⟩ := hdistinct
  exact ⟨fun x hx y hy => (hdone y hy x hx).symm, hmore⟩

/-- Starting and stopping the server makes no links, leaves the current directory, and leaves the
results as they are. -/
structure Server.Discreet (server : Server) (here : Location) (plan : Plan) : Prop where
  start : ∀ x ∈ plan.deployments, ∀ calls,
    Moves (OnDisk (Leaves here (goal here x.result))) here (server.start calls)
  stop : ∀ x ∈ plan.deployments, ∀ calls,
    Moves (OnDisk (Leaves here (goal here x.result))) here (server.stop calls)

namespace Cycle
variable {c : Cycle} {plan : Plan} {t : Http.Transport} {w w' : World} {loc : Location}

section Moving
variable {R : Disk → Disk → Prop} [IsPreorder Disk R]

theorem announce_moves (phase : Phase) (what : String) :
    Moves (OnDisk R) here (announce phase what) := Work.note_moves _ _ _ _

theorem copyToServer_moves (hdir : Moves R here (Files.ensureDir plan.dropins))
    (hfile : ∀ x ∈ plan.deployments, Moves R here (Files.copyFile plan.archive x.target))
    (htree : ∀ x ∈ plan.deployments, Moves R here (Files.copyTree plan.exploded x.target)) :
    Moves (OnDisk R) here (copyToServer plan) := by
  refine .bind (Files.lift_moves hdir) fun _ => ?_
  generalize plan.deployments = xs at hfile htree
  induction xs with
  | nil => exact .pure ()
  | cons x rest ih =>
    obtain ⟨hx, hrest⟩ := List.forall_mem_cons.1 hfile
    obtain ⟨hx', hrest'⟩ := List.forall_mem_cons.1 htree
    refine .bind (.bind (announce_moves _ _) fun _ => ?_) fun _ => ih hrest hrest'
    split
    · exact Files.lift_moves hx
    · exact .bind (Files.lift_moves hx') fun _ => .pure _

theorem requestOne_moves {d : Deployment}
    (hwrite : ∀ body, Moves R here (Files.writeText d.result (keptBody body))) :
    Moves (OnMachine (OnDisk R)) here (requestOne t d) := by
  intro w
  cases hanswer : t.answer w.machine.requests d.url with
  | error f =>
    obtain ⟨w', hone, hdisk⟩ := requestOne_of_unanswered here hanswer
    rw [hone]
    change R w.machine.disk w'.machine.disk
    rw [hdisk]
    exact refl_of R _
  | ok bytes =>
    obtain ⟨m, -, hone⟩ := requestOne_of_answered here hanswer
    rw [hone]
    exact hwrite _ _

theorem starting_moves (h : ∀ calls, Moves (OnDisk R) here (c.server.start calls)) :
    Moves (OnMachine (OnDisk R)) here c.starting :=
  .bind (Work.lift_moves (announce_moves _ _)) fun _ => Run.call_moves h

theorem finish_moves (h : ∀ calls, Moves (OnDisk R) here (c.server.stop calls))
    (outcome : Except Fault (List DeploymentReport)) :
    Moves (OnMachine (OnDisk R)) here (c.finish outcome) := by
  refine .bind (Work.lift_moves (announce_moves _ _)) fun _ => ?_
  refine .bind (.attempt (Run.call_moves h)) fun stopped => ?_
  split
  · exact .bind (Work.lift_moves (Work.note_moves _ _ _ _)) fun _ => .fail _
  · exact .fail _
  · exact .fail _
  · exact .pure _

end Moving

theorem copyToServer_leaves (hplan : plan.Keepable here) (hloc : ¬ goal here plan.dropins <+: loc) :
    Moves (OnDisk (Leaves here loc)) here (copyToServer plan) := by
  have htarget : ∀ x ∈ plan.deployments, goal here plan.dropins <+: goal here x.target := by
    intro x hx
    rw [hplan.targets x hx, goal_div (x.isName_warName (hplan.slashless x hx))]
    exact List.prefix_append _ _
  refine copyToServer_moves ?_ (fun x hx => ?_) fun x hx => ?_
  · exact leaves_of_spares (Files.ensureDir_spares _) (Files.ensureDir_grows _) hloc
  · exact leaves_of_spares (Files.copyFile_spares _ (htarget x hx)) (Files.copyFile_grows _ _) hloc
  · exact leaves_of_spares
      (Files.copyTree_spares fun _ => (htarget x hx).trans (List.prefix_append _ _))
      (Files.copyTree_grows _ _) hloc

section Requests
variable {d : Deployment} {ds done more : List Deployment}

theorem requestOne_leaves (h : loc ≠ goal here d.result) :
    Moves (OnMachine (OnDisk (Leaves here loc))) here (requestOne t d) := by
  refine requestOne_moves fun body => ?_
  have hspares : Moves (Spares (goal here d.result = ·)) here
      (Files.writeText d.result (keptBody body)) := Files.writeText_spares rfl _
  exact leaves_of_spares hspares (Files.writeText_grows _ _) h.symm

theorem requestAll_leaves (h : ∀ d ∈ ds, loc ≠ goal here d.result) :
    Moves (OnMachine (OnDisk (Leaves here loc))) here (requestAll t ds) := by
  induction ds with
  | nil => exact .pure []
  | cons d rest ih =>
    obtain ⟨hd, hrest⟩ := List.forall_mem_cons.1 h
    rw [requestAll_cons]
    exact .bind (requestOne_leaves hd) fun _ => .bind (ih hrest) fun _ => .pure _

theorem requestOne_eq_ok {body : String} (h : requestOne t d here w = (.ok body, w')) :
    ∃ bytes, t.answer w.machine.requests d.url = .ok bytes ∧ body = Text.decodeLossy bytes ∧
      Files.writeText d.result (keptBody body) here w.machine.disk = (.ok (), w'.machine.disk) ∧
      w'.machine.requests = w.machine.requests ++ [d.url] := by
  cases hanswer : t.answer w.machine.requests d.url with
  | error f =>
    obtain ⟨w₁, hone, -⟩ := requestOne_of_unanswered here hanswer
    exact absurd hone (ne_error_of_ok h)
  | ok bytes =>
    obtain ⟨m, hrequests, hone⟩ := requestOne_of_answered here hanswer
    rw [hone] at h
    obtain ⟨hbody, rfl⟩ := Prod.mk.inj h
    cases hwrite : Files.writeText d.result (keptBody (Text.decodeLossy bytes)) here
        w.machine.disk with
    | mk x written =>
      rw [hwrite] at hbody
      cases x with
      | error f => cases hbody
      | ok =>
        obtain rfl : Text.decodeLossy bytes = body := Except.ok.inj hbody
        exact ⟨bytes, rfl, rfl, hwrite, hrequests⟩

theorem requestAll_cons_eq_ok {bodies : List String}
    (h : requestAll t (d :: ds) here w = (.ok bodies, w')) :
    ∃ body w₁ more, requestOne t d here w = (.ok body, w₁) ∧
      requestAll t ds here w₁ = (.ok more, w') := by
  rw [requestAll_cons] at h
  obtain ⟨body, w₁, hone, h⟩ := bind_eq_ok_iff.1 h
  obtain ⟨more, w₂, hmore, h⟩ := bind_eq_ok_iff.1 h
  obtain ⟨-, rfl⟩ := ok_inj h
  exact ⟨body, w₁, more, hone, hmore⟩

theorem snd_requestAll_append {bodies : List String}
    (h : requestAll t done here w = (.ok bodies, w')) :
    (requestAll t (done ++ more) here w).2 = (requestAll t more here w').2 := by
  induction done generalizing w bodies with
  | nil =>
    obtain ⟨-, rfl⟩ := ok_inj h
    rfl
  | cons d rest ih =>
    obtain ⟨body, w₁, bodies', hone, hrest⟩ := requestAll_cons_eq_ok h
    rw [List.cons_append, requestAll_cons_of_ok hone]
    exact ih hrest

theorem requests_of_requestAll {bodies : List String}
    (h : requestAll t ds here w = (.ok bodies, w')) :
    w'.machine.requests = w.machine.requests ++ ds.map (·.url) := by
  induction ds generalizing w bodies with
  | nil =>
    obtain ⟨-, rfl⟩ := ok_inj h
    exact (List.append_nil _).symm
  | cons d rest ih =>
    obtain ⟨body, w₁, bodies', hone, hrest⟩ := requestAll_cons_eq_ok h
    obtain ⟨-, -, -, -, hrequests⟩ := requestOne_eq_ok hone
    rw [ih hrest, hrequests, List.append_assoc]
    rfl

end Requests

theorem snd_run_of_running {w₃ : World} (h : c.runningAt here w = some w₃) :
    (c.run here w).2 =
      (c.finish (c.whileRunning here w₃).1 here (c.requesting here w₃).2).2 := by
  obtain ⟨w₂, hstarting, h₃⟩ := runningAt_eq_some_iff.1 h
  obtain ⟨w₁, h₁, h₂⟩ := startingAt_eq_some_iff.1 hstarting
  rw [run_eq, bind_apply_ok h₁, bind_apply_ok h₂, bind_apply_ok h₃, bind_apply_ok attempt_apply,
    whileRunning_apply]

theorem snd_package_of_none (h : c.packager = none) (here : Location) (w : World) :
    (c.package here w).2 = w := by
  rw [snd_package, packaging, h]
  rfl

section Running
variable (hpackager : c.packager = none) (hplan : c.plan.Keepable here)
variable (hserver : c.server.Discreet here c.plan) {x : Deployment} (hx : x ∈ c.plan.deployments)
include hpackager hplan hserver hx

theorem leaves_until_running {w₃ : World} (h : c.runningAt here w = some w₃) :
    Leaves here (goal here x.result) w.machine.disk w₃.machine.disk := by
  obtain ⟨w₂, hstarting, h₃⟩ := runningAt_eq_some_iff.1 h
  obtain ⟨w₁, h₁, h₂⟩ := startingAt_eq_some_iff.1 hstarting
  obtain rfl : w = w₁ := by rw [← snd_package_of_none hpackager here w, h₁]
  have hcopied := (Work.lift_moves (copyToServer_leaves hplan (hplan.outside x hx))).of_eq h₂
  have hstarted := (starting_moves (hserver.start x hx)).of_eq h₃
  exact trans_of (Leaves here _) hcopied hstarted

theorem leaves_of_not_running (h : c.runningAt here w = none) :
    Leaves here (goal here x.result) w.machine.disk (c.run here w).2.machine.disk := by
  have hcopy := Work.lift_moves (copyToServer_leaves hplan (hplan.outside x hx))
  have hpackage {y : Except Fault Unit} {w₁ : World} (h₁ : c.package here w = (y, w₁)) :
      w = w₁ := by
    rw [← snd_package_of_none hpackager here w, h₁]
  cases c.course here w with
  | unpackaged h₁ hrun =>
    obtain rfl := hpackage h₁
    rw [hrun]
    exact refl_of (Leaves here _) _
  | uncopied h₁ h₂ hrun =>
    obtain rfl := hpackage h₁
    rw [hrun]
    exact hcopy.of_eq h₂
  | unstarted h₁ h₂ h₃ hrun =>
    obtain rfl := hpackage h₁
    rw [hrun]
    have hcopied := hcopy.of_eq h₂
    exact trans_of (Leaves here _) hcopied ((starting_moves (hserver.start x hx)).of_eq h₃)
  | ended h₁ h₂ h₃ =>
    have hrunning : c.runningAt here w = some _ :=
      runningAt_eq_some_iff.2 ⟨_, startingAt_eq_some_iff.2 ⟨_, h₁, h₂⟩, h₃⟩
    rw [h] at hrunning
    cases hrunning

omit hpackager hplan in
theorem leaves_since_requesting {w₃ : World} (h : c.runningAt here w = some w₃) :
    Leaves here (goal here x.result) (c.requesting here w₃).2.machine.disk
      (c.run here w).2.machine.disk := by
  rw [snd_run_of_running h]
  exact finish_moves (hserver.stop x hx) _ _

end Running

theorem keptBody_cases (body : String) :
    body.toList.getLast? = some '\n' ∧ keptBody body = body ∨
      body.toList.getLast? ≠ some '\n' ∧ keptBody body = body ++ "\n" := by
  rw [keptBody]
  split
  · rename_i h
    exact .inl ⟨by simpa using h, rfl⟩
  · rename_i h
    exact .inr ⟨by simpa using h, rfl⟩

/-- What the results are when a cycle ends whose server was running. While the deployments `done`
all had their pages kept: the page of the next one, if it is kept as well, stands in its result as
the body that was answered, with a line break at the end; and if it is not kept, no later result
has changed, nor its own if it was not answered. -/
structure Evidence (c : Cycle) (here : Location) (w w₃ w' : World) : Prop where
  kept : ∀ done d more bodies w₄ body w₅, c.plan.deployments = done ++ d :: more →
    requestAll c.transport done here w₃ = (.ok bodies, w₄) →
    requestOne c.transport d here w₄ = (.ok body, w₅) →
    ∃ bytes text mode,
      c.transport.answer (w₃.machine.requests ++ done.map (·.url)) d.url = .ok bytes ∧
      body = Text.decodeLossy bytes ∧
      (body.toList.getLast? = some '\n' ∧ text = body ∨
        body.toList.getLast? ≠ some '\n' ∧ text = body ++ "\n") ∧
      w'.machine.disk.file? (goal here d.result) = some (Text.encode text, mode)
  unreached : ∀ done d more bodies w₄ f w₅, c.plan.deployments = done ++ d :: more →
    requestAll c.transport done here w₃ = (.ok bodies, w₄) →
    requestOne c.transport d here w₄ = (.error f, w₅) →
    ∀ x ∈ more, w'.machine.disk.file? (goal here x.result) =
      w.machine.disk.file? (goal here x.result)
  unanswered : ∀ done d more bodies w₄ f, c.plan.deployments = done ++ d :: more →
    requestAll c.transport done here w₃ = (.ok bodies, w₄) →
    c.transport.answer (w₃.machine.requests ++ done.map (·.url)) d.url = .error f →
    w'.machine.disk.file? (goal here d.result) = w.machine.disk.file? (goal here d.result)

section Split
variable {done more : List Deployment} {d : Deployment} {bodies : List String} {w₃ w₄ w₅ : World}

theorem snd_requesting_of_kept (hsplit : c.plan.deployments = done ++ d :: more)
    (hdone : requestAll c.transport done here w₃ = (.ok bodies, w₄)) :
    (c.requesting here w₃).2 = (requestAll c.transport (d :: more) here w₄).2 := by
  rw [requesting, hsplit, snd_requestAll_append hdone]

/-- The first page that cannot be had or kept is the last one that is requested. -/
theorem snd_requesting_of_error {f : Fault} (hsplit : c.plan.deployments = done ++ d :: more)
    (hdone : requestAll c.transport done here w₃ = (.ok bodies, w₄))
    (hone : requestOne c.transport d here w₄ = (.error f, w₅)) :
    (c.requesting here w₃).2 = w₅ := by
  rw [snd_requesting_of_kept hsplit hdone, requestAll_cons_of_error hone]

theorem snd_requesting_of_ok {body : String} (hsplit : c.plan.deployments = done ++ d :: more)
    (hdone : requestAll c.transport done here w₃ = (.ok bodies, w₄))
    (hone : requestOne c.transport d here w₄ = (.ok body, w₅)) :
    (c.requesting here w₃).2 = (requestAll c.transport more here w₅).2 := by
  rw [snd_requesting_of_kept hsplit hdone, requestAll_cons_of_ok hone]

variable (hpackager : c.packager = none) (hplan : c.plan.Keepable here)
variable (hserver : c.server.Discreet here c.plan) (hrunning : c.runningAt here w = some w₃)
variable (hsplit : c.plan.deployments = done ++ d :: more)
variable (hdone : requestAll c.transport done here w₃ = (.ok bodies, w₄))
include hpackager hplan hserver hrunning hsplit hdone

theorem leaves_until_kept {x : Deployment} (hx : x ∈ d :: more) :
    Leaves here (goal here x.result) w.machine.disk w₄.machine.disk := by
  have hmem : x ∈ c.plan.deployments := hsplit ▸ List.mem_append_right _ hx
  have hbefore := leaves_until_running hpackager hplan hserver hmem hrunning
  have hrequested := (requestAll_leaves ((hplan.apart hsplit).1 x hx)).of_eq hdone
  exact trans_of (Leaves here _) hbefore hrequested

variable (hw : w.machine.disk.Plain) (hhere : w.machine.disk.get? here = some .directory)
include hw hhere

theorem file?_of_kept {body : String}
    (hone : requestOne c.transport d here w₄ = (.ok body, w₅)) :
    ∃ mode, (c.run here w).2.machine.disk.file? (goal here d.result) =
      some (Text.encode (keptBody body), mode) := by
  have hmem : d ∈ c.plan.deployments := hsplit ▸ by simp
  -- the disk is still plain when the page is written, and what follows leaves the page alone
  obtain ⟨hplain, hdir, -⟩ := leaves_until_kept hpackager hplan hserver hrunning hsplit hdone
    List.mem_cons_self hw hhere
  obtain ⟨-, -, -, hwrite, -⟩ := requestOne_eq_ok hone
  obtain ⟨mode, hfile⟩ := Files.writeText_file hplain hdir hwrite
  have hspares : Moves (Spares (goal here d.result = ·)) here
      (Files.writeText d.result (keptBody body)) := Files.writeText_spares rfl _
  have hplain' := (hspares.of_eq hwrite hplain).1
  have hdir' := ((Files.writeText_grows _ _).of_eq hwrite).directory hdir
  have hmore : Moves (OnMachine (OnDisk (Leaves here (goal here d.result)))) here
      (requestAll c.transport more) := requestAll_leaves (hplan.apart hsplit).2
  have hend := leaves_since_requesting hserver hmem hrunning
  rw [snd_requesting_of_ok hsplit hdone hone] at hend
  obtain ⟨-, -, hkept⟩ := trans_of (Leaves here _) (hmore w₅) hend hplain' hdir'
  exact ⟨mode, hkept.trans hfile⟩

theorem file?_of_unreached {f : Fault} (hone : requestOne c.transport d here w₄ = (.error f, w₅))
    {x : Deployment} (hx : x ∈ more) :
    (c.run here w).2.machine.disk.file? (goal here x.result) =
      w.machine.disk.file? (goal here x.result) := by
  have hmem : x ∈ c.plan.deployments := hsplit ▸ by simp [hx]
  have hbefore := leaves_until_kept hpackager hplan hserver hrunning hsplit hdone
    (List.mem_cons_of_mem d hx)
  have hfailed := (requestOne_leaves ((hplan.apart hsplit).2 x hx).symm).of_eq hone
  have hend := leaves_since_requesting hserver hmem hrunning
  rw [snd_requesting_of_error hsplit hdone hone] at hend
  have hall := trans_of (Leaves here _) (trans_of (Leaves here _) hbefore hfailed) hend
  exact (hall hw hhere).2.2

theorem file?_of_unanswered {f : Fault}
    (hanswer : c.transport.answer (w₃.machine.requests ++ done.map (·.url)) d.url = .error f) :
    (c.run here w).2.machine.disk.file? (goal here d.result) =
      w.machine.disk.file? (goal here d.result) := by
  have hmem : d ∈ c.plan.deployments := hsplit ▸ by simp
  have hbefore := leaves_until_kept hpackager hplan hserver hrunning hsplit hdone
    List.mem_cons_self
  rw [← requests_of_requestAll hdone] at hanswer
  obtain ⟨w₅, hone, hdisk⟩ := requestOne_of_unanswered here hanswer
  have hend := leaves_since_requesting hserver hmem hrunning
  rw [snd_requesting_of_error hsplit hdone hone, hdisk] at hend
  exact (trans_of (Leaves here _) hbefore hend hw hhere).2.2

end Split

/-- When a cycle without a packager ends, the results hold the pages that were had, up to the first
one that could not be had or kept, however the pages are judged and the server is stopped. A cycle
whose server does not get to run changes no result. -/
theorem run_evidence (hpackager : c.packager = none) (hplan : c.plan.Keepable here)
    (hserver : c.server.Discreet here c.plan) (hw : w.machine.disk.Plain)
    (hhere : w.machine.disk.get? here = some .directory) :
    (∀ w₃, c.runningAt here w = some w₃ → Evidence c here w w₃ (c.run here w).2) ∧
      (c.runningAt here w = none → ∀ x ∈ c.plan.deployments,
        (c.run here w).2.machine.disk.file? (goal here x.result) =
          w.machine.disk.file? (goal here x.result)) := by
  refine ⟨fun w₃ hrunning => ?_, fun hnone x hx => ?_⟩
  · constructor
    case kept =>
      intro done d more bodies w₄ body w₅ hsplit hdone hone
      obtain ⟨bytes, hanswer, hbody, -⟩ := requestOne_eq_ok hone
      rw [requests_of_requestAll hdone] at hanswer
      obtain ⟨mode, hfile⟩ := file?_of_kept hpackager hplan hserver hrunning hsplit hdone hw hhere
        hone
      exact ⟨bytes, keptBody body, mode, hanswer, hbody, keptBody_cases body, hfile⟩
    case unreached =>
      intro done d more bodies w₄ f w₅ hsplit hdone hone x hx
      exact file?_of_unreached hpackager hplan hserver hrunning hsplit hdone hw hhere hone hx
    case unanswered =>
      intro done d more bodies w₄ f hsplit hdone hanswer
      exact file?_of_unanswered hpackager hplan hserver hrunning hsplit hdone hw hhere hanswer
  · exact (leaves_of_not_running hpackager hplan hserver hx hnone hw hhere).2.2

section Sample
variable {d : Deployment} {body : String}

theorem exists_running (h : ((c.runningAt here w).map fun w₃ =>
    (requestOne c.transport d here w₃).1) = some (.ok body)) :
    ∃ w₃ w₄, c.runningAt here w = some w₃ ∧
      requestOne c.transport d here w₃ = (.ok body, w₄) := by
  obtain ⟨w₃, hrunning, hone⟩ := Option.map_eq_some_iff.1 h
  exact ⟨w₃, _, hrunning, Prod.ext hone rfl⟩

theorem keepable_twoPages : twoPages.plan.Keepable [] := by
  constructor <;> decide +kernel

theorem plain_archiveOnly : archiveOnly.machine.disk.Plain := by
  change (Disk.onlyRoot.put [] "a" (.file [1] .data)).Plain
  exact plain_onlyRoot.put (by decide) nofun

def firstPage : Deployment := ⟨"p", .packed, ⟨"/d/p.war"⟩, "http://p", ⟨"/r/p"⟩⟩

/-- The first page is kept although the second one is found to lack a text. -/
theorem run_evidence_sample :
    (twoPages.run [] archiveOnly).1 = .error (.missingExpected "ok" "http://q") ∧
      ∃ mode, (twoPages.run [] archiveOnly).2.machine.disk.file? (goal [] firstPage.result) =
        some (Text.encode "ok\n", mode) := by
  have hfirst : ((twoPages.runningAt [] archiveOnly).map fun w₃ =>
      (requestOne twoPages.transport firstPage [] w₃).1) = some (.ok "ok") := by decide +kernel
  obtain ⟨w₃, w₄, hrunning, hone⟩ := exists_running hfirst
  have hserver : twoPages.server.Discreet [] twoPages.plan :=
    ⟨fun _ _ _ => .pure (), fun _ _ _ => .pure ()⟩
  obtain ⟨hevidence, -⟩ := run_evidence rfl keepable_twoPages hserver plain_archiveOnly
    (by decide +kernel)
  obtain ⟨-, text, mode, -, -, htext, hfile⟩ :=
    (hevidence w₃ hrunning).kept [] firstPage _ [] w₃ "ok" w₄ rfl rfl hone
  refine ⟨by decide +kernel, mode, ?_⟩
  obtain ⟨hbreak, -⟩ | ⟨-, rfl⟩ := htext
  · cases hbreak
  · exact hfile

def overwriting : Cycle :=
  { twoPages with
    server := { twoPages.server with
      stop := fun _ => (Files.writeText firstPage.result "gone" : Files Unit) } }

/-- What is kept does not outlast a server that overwrites it. -/
theorem overwriting_loses : overwriting.packager = none ∧ overwriting.plan.Keepable [] ∧
    archiveOnly.machine.disk.Plain ∧ archiveOnly.machine.disk.get? [] = some .directory ∧
    ∃ w₃, overwriting.runningAt [] archiveOnly = some w₃ ∧
      ¬ Evidence overwriting [] archiveOnly w₃ (overwriting.run [] archiveOnly).2 := by
  have hfirst : ((overwriting.runningAt [] archiveOnly).map fun w₃ =>
      (requestOne overwriting.transport firstPage [] w₃).1) = some (.ok "ok") := by decide +kernel
  have hgone : (overwriting.run [] archiveOnly).2.machine.disk.file? (goal [] firstPage.result) =
      some (Text.encode "gone", .data) := by decide +kernel
  obtain ⟨w₃, w₄, hrunning, hone⟩ := exists_running hfirst
  refine ⟨rfl, keepable_twoPages, plain_archiveOnly, by decide +kernel, w₃, hrunning, ?_⟩
  intro hevidence
  obtain ⟨-, text, mode, -, -, htext, hfile⟩ :=
    hevidence.kept [] firstPage _ [] w₃ "ok" w₄ rfl rfl hone
  rw [hgone, Option.some_inj, Prod.mk.injEq] at hfile
  obtain ⟨-, rfl⟩ | ⟨-, rfl⟩ := htext
  · exact absurd hfile.1 (by decide)
  · exact absurd hfile.1 (by decide)

end Sample

end Cycle

end Deploy

end GemStaging
