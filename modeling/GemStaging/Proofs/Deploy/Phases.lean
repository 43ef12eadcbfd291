import GemStaging.Deploy.Cycle
import GemStaging.Proofs.Staging.Steps

/-!
The phases of a deploy cycle. A run takes one of four courses: packaging, copying or starting fails
and ends it, or the server starts and is stopped in the end. What each course comes to, its result
and its calls, is said here once.
-/

namespace GemStaging

open Effect

namespace Deploy

def Plan.Present (plan : Plan) (here : Location) (d : Disk) : Prop :=
  d.isFileAt here plan.archive ∧
    ((∃ x ∈ plan.deployments, x.form = .unpacked) → d.isDirAt here plan.exploded)

namespace Cycle
variable {here : Location} {w w' : World}

def packaging (c : Cycle) : Run Unit :=
  match c.packager with
  | some run => Run.call .package run
  | none => pure ()

def copying (c : Cycle) : Run Unit := (copyToServer c.plan : Work Unit)

def starting (c : Cycle) : Run Unit := do
  (announce .start c.server.name : Work Unit)
  Run.call .start c.server.start

def requesting (c : Cycle) : Run (List String) := requestAll c.transport c.plan.deployments

def stopping (c : Cycle) : Run Unit := do
  (announce .stop c.server.name : Work Unit)
  Run.call .stop c.server.stop

def requestOne (t : Http.Transport) (d : Deployment) : Run String := do
  (announce .request d.url : Work Unit)
  let body ← Run.call (.request d.url) fun _ => Http.getText t d.url
  ((Files.writeText d.result (keptBody body) : Files Unit) : Work Unit)
  return body

theorem requestAll_cons (t : Http.Transport) (d : Deployment) (rest : List Deployment) :
    requestAll t (d :: rest) = do
      let body ← requestOne t d
      return body :: (← requestAll t rest) := by
  simp only [requestAll, requestOne, bind_assoc]
  rfl

def checking (plan : Plan) : Files Unit := do
  if !(← Access.isFile plan.archive) then .fail (.fileMissing plan.archive.text)
  if plan.needsExploded then
    if !(← Access.isDir plan.exploded) then .fail (.fileMissing plan.exploded.text)

theorem package_eq (c : Cycle) :
    c.package = (do
      c.packaging
      (checking c.plan : Work Unit)) := by
  cases h : c.packager with
  | none => simp only [package, packaging, h]; rfl
  | some run => simp only [package, packaging, h]; rfl

theorem needsExploded_iff {plan : Plan} :
    plan.needsExploded ↔ ∃ x ∈ plan.deployments, x.form = .unpacked := by
  simp [Plan.needsExploded]

theorem checking_apply (plan : Plan) (here : Location) (d : Disk) :
    ∃ x, checking plan here d = (x, d) ∧ (x = .ok () ↔ plan.Present here d) := by
  have hfile : (Access.isFile plan.archive : Files Bool) here d =
      (.ok (d.isFileAt here plan.archive), d) := rfl
  have hdir : (Access.isDir plan.exploded : Files Bool) here d =
      (.ok (d.isDirAt here plan.exploded), d) := rfl
  rw [checking, bind_apply_ok hfile, Plan.Present, ← needsExploded_iff]
  cases d.isFileAt here plan.archive with
  | false => exact ⟨_, rfl, by simp⟩
  | true =>
    cases plan.needsExploded with
    | false => exact ⟨_, rfl, by simp⟩
    | true =>
      have hrest : ∀ x : Bool,
          (if !x then .fail (.fileMissing plan.exploded.text) else pure () : Files Unit) here d =
            (if x then .ok () else .error (.fileMissing plan.exploded.text), d) := by
        intro x
        cases x <;> rfl
      refine ⟨_, (bind_apply_ok hdir).trans (hrest _), ?_⟩
      simp

theorem snd_checking (plan : Plan) (here : Location) (d : Disk) : (checking plan here d).2 = d := by
  obtain ⟨x, hx, -⟩ := checking_apply plan here d
  rw [hx]

theorem checking_eq_ok_iff {plan : Plan} {d d' : Disk} :
    checking plan here d = (.ok (), d') ↔ plan.Present here d ∧ d' = d := by
  obtain ⟨x, hx, hpresent⟩ := checking_apply plan here d
  rw [hx, ← hpresent, Prod.mk.injEq, eq_comm (a := d)]

variable {c : Cycle}

theorem snd_package : (c.package here w).2 = (c.packaging here w).2 := by
  rw [package_eq]
  cases h : c.packaging here w with
  | mk x w' =>
    cases x with
    | error f => rw [bind_apply_error h]
    | ok =>
      rw [bind_apply_ok h, Work.lift_apply, Files.lift_apply]
      dsimp only
      rw [snd_checking]

theorem package_eq_ok_iff :
    c.package here w = (.ok (), w') ↔
      c.packaging here w = (.ok (), w') ∧ c.plan.Present here w'.machine.disk := by
  rw [package_eq, bind_eq_ok_iff]
  constructor
  · rintro ⟨⟨⟩, w₁, hpackaging, hchecking⟩
    obtain ⟨m, hm, rfl⟩ := Work.lift_eq_ok_iff.1 hchecking
    obtain ⟨d, hd, rfl⟩ := Files.lift_eq_ok_iff.1 hm
    obtain ⟨hpresent, rfl⟩ := checking_eq_ok_iff.1 hd
    exact ⟨hpackaging, hpresent⟩
  · rintro ⟨hpackaging, hpresent⟩
    exact ⟨(), w', hpackaging, Work.lift_eq_ok_iff.2 ⟨_, Files.lift_eq_ok_iff.2
      ⟨_, checking_eq_ok_iff.2 ⟨hpresent, rfl⟩, rfl⟩, rfl⟩⟩

theorem whileRunning_apply (c : Cycle) (here : Location) (w : World) :
    c.whileRunning here w = ((c.requesting here w).1.bind fun bodies =>
      verifyAll c.plan.expected (c.plan.deployments.zip bodies), (c.requesting here w).2) := by
  obtain ⟨f, w', h⟩ | ⟨bodies, w', h⟩ := c.requesting.error_or_ok here w
  · rw [h]
    exact bind_apply_error h
  · rw [h]
    exact bind_apply_ok h

/-- How a cycle ends whose server was started: with what happened before the server was stopped,
and only behind that with the stop. -/
def ending : Except Fault (List DeploymentReport) → Except Fault Unit → Except Fault Report
  | .error f, _ => .error f
  | .ok _, .error f => .error f
  | .ok deployments, .ok () => .ok { completed := Phase.all, deployments }

theorem announce_bind (phase : Phase) (what : String) (here : Location) (w : World) :
    ∃ w' : World, w.machine.OnlyLogged w'.machine ∧ w'.calls = w.calls ∧
      ∀ {α : Type} (e : Run α),
        ((liftM (announce phase what) : Run Unit) >>= fun _ => e) here w = e here w' := by
  obtain ⟨m, hm, hlogged⟩ : ∃ m, announce phase what here w.machine = (.ok (), m) ∧ _ :=
    Work.note_apply ..
  exact ⟨{ w with machine := m }, hlogged, rfl,
    fun e => bind_apply_ok (Work.lift_eq_ok_iff.2 ⟨m, hm, rfl⟩)⟩

theorem getText_apply (t : Http.Transport) (url : String) (here : Location) (m : Machine) :
    ∃ m', Http.getText t url here m =
        ((t.answer m.requests url).map Text.decodeLossy, m') ∧
      m'.disk = m.disk ∧ m'.requests = m.requests ++ [url] := by
  obtain ⟨m₁, hnote, hdisk, hrequests⟩ :
      ∃ m₁, Work.note .debug "gemstage::http" "GET" [("url", url)] here m = (.ok (), m₁) ∧
        m.OnlyLogged m₁ := Work.note_apply ..
  rw [← hrequests]
  refine ⟨{ m₁ with requests := m₁.requests ++ [url] }, ?_, hdisk, rfl⟩
  have hbytes : Http.getBytes t url here m = (t.answer m₁.requests url,
      { m₁ with requests := m₁.requests ++ [url] }) := by
    rw [Http.getBytes, bind_apply_ok hnote]
    rfl
  rw [Http.getText]
  cases hanswer : t.answer m₁.requests url with
  | error f =>
    rw [hanswer] at hbytes
    exact bind_apply_error hbytes
  | ok bytes =>
    rw [hanswer] at hbytes
    exact bind_apply_ok hbytes

section Requests
variable {t : Http.Transport} {d : Deployment}

theorem requestOne_apply (t : Http.Transport) (d : Deployment) (here : Location) (w : World) :
    ∃ m, m.disk = w.machine.disk ∧ m.requests = w.machine.requests ++ [d.url] ∧
      requestOne t d here w = ((do
        let body ← Effect.ofExcept ((t.answer w.machine.requests d.url).map Text.decodeLossy)
        ((Files.writeText d.result (keptBody body) : Files Unit) : Work Unit)
        return body : Run String) here ⟨m, w.calls ++ [.request d.url]⟩) := by
  obtain ⟨w₁, ⟨hdisk, hrequests⟩, hcalls, hannounce⟩ := announce_bind .request d.url here w
  obtain ⟨m, hget, hdisk', hrequests'⟩ := getText_apply t d.url here w₁.machine
  refine ⟨m, hdisk'.trans hdisk, hrequests ▸ hrequests', ?_⟩
  rw [requestOne, hannounce]
  have hcall : Run.call (.request d.url) (fun _ => Http.getText t d.url) here w₁ =
      ((t.answer w.machine.requests d.url).map Text.decodeLossy,
        ⟨m, w.calls ++ [.request d.url]⟩) := by
    rw [Run.call_apply, hget, hrequests, hcalls]
  rw [bind_apply, hcall]
  rfl

theorem requestOne_of_unanswered (here : Location) {f : Fault}
    (h : t.answer w.machine.requests d.url = .error f) :
    ∃ w', requestOne t d here w = (.error f, w') ∧ w'.machine.disk = w.machine.disk := by
  obtain ⟨m, hdisk, -, hone⟩ := requestOne_apply t d here w
  rw [h] at hone
  exact ⟨_, hone, hdisk⟩

theorem requestOne_of_answered (here : Location) {bytes : Bytes}
    (h : t.answer w.machine.requests d.url = .ok bytes) :
    ∃ m : Machine, m.requests = w.machine.requests ++ [d.url] ∧
      requestOne t d here w =
        ((Files.writeText d.result (keptBody (Text.decodeLossy bytes)) here w.machine.disk).1.map
            fun _ => Text.decodeLossy bytes,
          ⟨{ m with disk := (Files.writeText d.result (keptBody (Text.decodeLossy bytes)) here
            w.machine.disk).2 }, w.calls ++ [.request d.url]⟩) := by
  obtain ⟨m, hdisk, hrequests, hone⟩ := requestOne_apply t d here w
  refine ⟨m, hrequests, ?_⟩
  rw [h] at hone
  have hbody : (Effect.ofExcept ((Except.ok bytes : Except Fault Bytes).map Text.decodeLossy) :
      Run String) here ⟨m, w.calls ++ [.request d.url]⟩ = (.ok (Text.decodeLossy bytes), _) := rfl
  rw [hone, bind_apply_ok hbody, ← hdisk]
  rw [bind_apply, Work.lift_apply, Files.lift_apply]
  cases Files.writeText d.result (keptBody (Text.decodeLossy bytes)) here m.disk with
  | mk x e => cases x <;> rfl

end Requests

/-- A cycle ends with what happened before its server was stopped, and only behind that with the
stop. -/
theorem finish_apply (c : Cycle) (here : Location) (w : World)
    (outcome : Except Fault (List DeploymentReport)) :
    ∃ w', c.finish outcome here w = (ending outcome (c.stopping here w).1, w') ∧
      w'.calls = (c.stopping here w).2.calls := by
  obtain ⟨w₁, -, -, hannounce⟩ := announce_bind .stop c.server.name here w
  rw [finish, stopping, hannounce, hannounce]
  obtain ⟨f, w', h⟩ | ⟨⟨⟩, w', h⟩ := (Run.call .stop c.server.stop).error_or_ok here w₁
  · rw [h, bind_apply_ok (attempt_of_eq h)]
    cases outcome with
    | error f => exact ⟨_, rfl, rfl⟩
    | ok => exact ⟨_, rfl, rfl⟩
  · rw [h, bind_apply_ok (attempt_of_eq h)]
    cases outcome with
    | error f => exact ⟨_, rfl, rfl⟩
    | ok => exact ⟨_, rfl, rfl⟩

theorem run_eq (c : Cycle) :
    c.run = (do
      c.package
      c.copying
      c.starting
      let outcome ← c.whileRunning.attempt
      c.finish outcome) := by
  simp only [run, starting, bind_assoc]
  rfl

inductive Course (c : Cycle) (here : Location) (w : World) : Prop where
  | unpackaged {f : Fault} {w' : World} :
      c.package here w = (.error f, w') → c.run here w = (.error f, w') → Course c here w
  | uncopied {f : Fault} {w₁ w' : World} :
      c.package here w = (.ok (), w₁) → c.copying here w₁ = (.error f, w') →
      c.run here w = (.error f, w') → Course c here w
  | unstarted {f : Fault} {w₁ w₂ w' : World} :
      c.package here w = (.ok (), w₁) → c.copying here w₁ = (.ok (), w₂) →
      c.starting here w₂ = (.error f, w') → c.run here w = (.error f, w') → Course c here w
  | ended {w₁ w₂ w₃ w' : World} :
      c.package here w = (.ok (), w₁) → c.copying here w₁ = (.ok (), w₂) →
      c.starting here w₂ = (.ok (), w₃) →
      c.run here w =
        (ending (c.whileRunning here w₃).1 (c.stopping here (c.whileRunning here w₃).2).1, w') →
      w'.calls = (c.stopping here (c.whileRunning here w₃).2).2.calls → Course c here w

theorem course (c : Cycle) (here : Location) (w : World) : c.Course here w := by
  have hrun := run_eq c
  obtain ⟨f, w', h₁⟩ | ⟨⟨⟩, w₁, h₁⟩ := c.package.error_or_ok here w
  · exact .unpackaged h₁ (hrun ▸ bind_apply_error h₁)
  obtain ⟨f, w', h₂⟩ | ⟨⟨⟩, w₂, h₂⟩ := c.copying.error_or_ok here w₁
  · refine .uncopied h₁ h₂ ?_
    rw [hrun, bind_apply_ok h₁, bind_apply_error h₂]
  obtain ⟨f, w', h₃⟩ | ⟨⟨⟩, w₃, h₃⟩ := c.starting.error_or_ok here w₂
  · refine .unstarted h₁ h₂ h₃ ?_
    rw [hrun, bind_apply_ok h₁, bind_apply_ok h₂, bind_apply_error h₃]
  · obtain ⟨w', hfinish, hcalls⟩ :=
      finish_apply c here (c.whileRunning here w₃).2 (c.whileRunning here w₃).1
    refine .ended h₁ h₂ h₃ ?_ hcalls
    rw [hrun, bind_apply_ok h₁, bind_apply_ok h₂, bind_apply_ok h₃, bind_apply_ok attempt_apply,
      hfinish]

end Cycle

end Deploy

end GemStaging
