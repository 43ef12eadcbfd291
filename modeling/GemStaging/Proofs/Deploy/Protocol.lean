import GemStaging.Proofs.Deploy.Phases

/-!
The protocol that a deploy cycle keeps to. The packager, the server and the pages may do anything;
which calls a run makes, in which order, and what it ends with is fixed by which phase fails.
-/

namespace GemStaging

open Effect

section Effects
variable {ρ σ ε α : Type}

def failureOf : Except ε α → Option ε
  | .ok _ => none
  | .error c => some c

def Effect.after? (e : Effect ρ σ ε α) (r : ρ) (s : σ) : Option σ :=
  match e r s with
  | (.ok _, s) => some s
  | (.error _, _) => none

theorem Effect.after?_eq_some_iff {e : Effect ρ σ ε α} {r : ρ} {s t : σ} :
    e.after? r s = some t ↔ ∃ x, e r s = (.ok x, t) := by
  rw [after?]
  obtain ⟨c, t', h⟩ | ⟨x, t', h⟩ := e.error_or_ok r s <;> simp [h]

end Effects

/-- A computation makes these calls, whether it succeeds or fails. -/
def Run.Makes {α : Type} (calls : List Call) (here : Location) (e : Run α) : Prop :=
  ∀ w, (e here w).2.calls = w.calls ++ calls

namespace Run.Makes
variable {here : Location} {α β : Type} {cs : List Call}

theorem lift (e : Work α) (here : Location) : Makes [] here (liftM e : Run α) :=
  fun _ => (List.append_nil _).symm

theorem pure (x : α) : Makes [] here (Pure.pure x : Run α) := fun _ => (List.append_nil _).symm

theorem call (x : Call) (act : List Call → Work α) : Makes [x] here (Run.call x act) :=
  fun _ => rfl

theorem bind {e : Run α} {f : α → Run β} (he : Makes cs here e) (hf : ∀ x, Makes [] here (f x)) :
    Makes cs here (e >>= f) := by
  intro w
  have hcalls := he w
  obtain ⟨c, w', h⟩ | ⟨x, w', h⟩ := e.error_or_ok here w
  · rw [bind_apply_error h]
    rwa [h] at hcalls
  · rw [bind_apply_ok h, hf x w', List.append_nil]
    rwa [h] at hcalls

end Run.Makes

namespace Deploy

def isServerCall : Call → Bool
  | .start => true
  | .stop => true
  | _ => false

def isRequest : Call → Bool
  | .request _ => true
  | _ => false

namespace Cycle
variable {c : Cycle} {here : Location} {w w' : World}

theorem makes_announced {α : Type} {phase : Phase} {what : String} {e : Run α} {cs : List Call}
    (he : Run.Makes cs here e) :
    Run.Makes cs here ((liftM (announce phase what) : Run Unit) >>= fun _ => e) := by
  intro w
  obtain ⟨w₁, -, hcalls, hannounce⟩ := announce_bind phase what here w
  rw [hannounce, he w₁, hcalls]

theorem makes_starting (c : Cycle) (here : Location) : Run.Makes [.start] here c.starting :=
  makes_announced (.call _ _)

theorem makes_stopping (c : Cycle) (here : Location) : Run.Makes [.stop] here c.stopping :=
  makes_announced (.call _ _)

theorem makes_requestOne (t : Http.Transport) (d : Deployment) (here : Location) :
    Run.Makes [.request d.url] here (requestOne t d) :=
  makes_announced ((Run.Makes.call _ _).bind fun body =>
    (Run.Makes.lift _ here).bind fun _ => .pure body)

def packagerCalls (c : Cycle) : List Call :=
  if c.packager.isSome then [.package] else []

theorem makes_packaging (c : Cycle) (here : Location) :
    Run.Makes c.packagerCalls here c.packaging := by
  rw [packagerCalls, packaging]
  cases c.packager with
  | none => exact .pure ()
  | some run => exact .call _ _

/-- The deployments that pages are requested for: all of them up to the first one whose page cannot
be had or kept. -/
def requested (t : Http.Transport) (here : Location) : List Deployment → World → List Deployment
  | [], _ => []
  | d :: rest, w =>
    d :: match requestOne t d here w with
      | (.ok _, w') => requested t here rest w'
      | (.error _, _) => []

theorem requested_cons_of_ok {t : Http.Transport} {d : Deployment} {rest : List Deployment}
    {body : String} (h : requestOne t d here w = (.ok body, w')) :
    requested t here (d :: rest) w = d :: requested t here rest w' := by
  rw [requested, h]

theorem requested_cons_of_error {t : Http.Transport} {d : Deployment} {rest : List Deployment}
    {f : Fault} (h : requestOne t d here w = (.error f, w')) :
    requested t here (d :: rest) w = [d] := by
  rw [requested, h]

theorem requestAll_cons_of_ok {t : Http.Transport} {d : Deployment} {rest : List Deployment}
    {body : String} (h : requestOne t d here w = (.ok body, w')) :
    requestAll t (d :: rest) here w =
      ((requestAll t rest here w').1.map (body :: ·), (requestAll t rest here w').2) := by
  rw [requestAll_cons, bind_apply_ok h]
  obtain ⟨f, w'', h'⟩ | ⟨more, w'', h'⟩ := (requestAll t rest).error_or_ok here w'
  · rw [h', bind_apply_error h']
    rfl
  · rw [h', bind_apply_ok h']
    rfl

theorem requestAll_cons_of_error {t : Http.Transport} {d : Deployment} {rest : List Deployment}
    {f : Fault} (h : requestOne t d here w = (.error f, w')) :
    requestAll t (d :: rest) here w = (.error f, w') := by
  rw [requestAll_cons, bind_apply_error h]

theorem calls_requestAll (t : Http.Transport) (ds : List Deployment) (w : World) :
    (requestAll t ds here w).2.calls =
      w.calls ++ (requested t here ds w).map fun d => .request d.url := by
  induction ds generalizing w with
  | nil => exact (List.append_nil _).symm
  | cons d rest ih =>
    have hone := makes_requestOne t d here w
    obtain ⟨f, w', h⟩ | ⟨body, w', h⟩ := (requestOne t d).error_or_ok here w
    · rw [requestAll_cons_of_error h, requested_cons_of_error h]
      rwa [h] at hone
    · rw [requestAll_cons_of_ok h, requested_cons_of_ok h]
      rw [h] at hone
      rw [ih, hone]
      simp

theorem requested_prefix (t : Http.Transport) (ds : List Deployment) (w : World) :
    requested t here ds w <+: ds := by
  induction ds generalizing w with
  | nil => exact List.nil_prefix
  | cons d rest ih =>
    obtain ⟨f, w', h⟩ | ⟨body, w', h⟩ := (requestOne t d).error_or_ok here w
    · rw [requested_cons_of_error h]
      exact ⟨rest, rfl⟩
    · rw [requested_cons_of_ok h]
      exact (List.prefix_cons_inj d).2 (ih w')

theorem requestAll_of_requested {t : Http.Transport} {ds done more : List Deployment}
    {d : Deployment} (h : requested t here ds w = done ++ d :: more) :
    ∃ bodies w', requestAll t done here w = (.ok bodies, w') := by
  induction ds generalizing w done with
  | nil => simp [requested] at h
  | cons d' rest ih =>
    cases done with
    | nil => exact ⟨[], w, rfl⟩
    | cons d'' done =>
      obtain ⟨f, w', hone⟩ | ⟨body, w', hone⟩ := (requestOne t d').error_or_ok here w
      · rw [requested_cons_of_error hone] at h
        simp at h
      · rw [requested_cons_of_ok hone] at h
        obtain ⟨rfl, hrest⟩ := List.cons.inj h
        obtain ⟨bodies, w'', hdone⟩ := ih hrest
        refine ⟨body :: bodies, w'', ?_⟩
        rw [requestAll_cons_of_ok hone, hdone]
        rfl

section Worlds

def copyingAt (c : Cycle) (here : Location) (w : World) : Option World :=
  c.package.after? here w

def startingAt (c : Cycle) (here : Location) (w : World) : Option World :=
  (c.copyingAt here w).bind (c.copying.after? here)

def runningAt (c : Cycle) (here : Location) (w : World) : Option World :=
  (c.startingAt here w).bind (c.starting.after? here)

/-- The world in which the server is stopped: it is once it has started, whether or not all pages
could be had. -/
def stoppingAt (c : Cycle) (here : Location) (w : World) : Option World :=
  (c.runningAt here w).map fun w => (c.requesting here w).2

/-- The fault that a phase fails with, if it comes to that phase and it fails. -/
def faultIn (c : Cycle) (here : Location) (w : World) : Phase → Option Fault
  | .package => failureOf (c.package here w).1
  | .copy => (c.copyingAt here w).bind fun w => failureOf (c.copying here w).1
  | .start => (c.startingAt here w).bind fun w => failureOf (c.starting here w).1
  | .request => (c.runningAt here w).bind fun w => failureOf (c.requesting here w).1
  | .verify => (c.runningAt here w).bind fun w =>
    (c.requesting here w).1.toOption.bind fun bodies =>
      failureOf (verifyAll c.plan.expected (c.plan.deployments.zip bodies))
  | .stop => (c.stoppingAt here w).bind fun w => failureOf (c.stopping here w).1

def trace (c : Cycle) (here : Location) (w : World) : List Call :=
  c.packagerCalls ++ (if (c.startingAt here w).isSome then [.start] else []) ++
    match c.runningAt here w with
    | none => []
    | some w => (requested c.transport here c.plan.deployments w).map (.request ·.url) ++ [.stop]

theorem calls_whileRunning (c : Cycle) (here : Location) (w : World) :
    (c.whileRunning here w).2.calls = w.calls ++
      (requested c.transport here c.plan.deployments w).map (.request ·.url) := by
  rw [whileRunning_apply]
  exact calls_requestAll ..

theorem calls_of_package {x : Except Fault Unit} (h : c.package here w = (x, w')) :
    w'.calls = w.calls ++ c.packagerCalls := by
  rw [← makes_packaging c here w, ← snd_package, h]

theorem calls_of_copying {x : Except Fault Unit} (h : c.copying here w = (x, w')) :
    w'.calls = w.calls := by
  have hcalls := Run.Makes.lift (copyToServer c.plan) here w
  rw [List.append_nil] at hcalls
  rw [← hcalls, ← copying, h]

theorem calls_of_starting {x : Except Fault Unit} (h : c.starting here w = (x, w')) :
    w'.calls = w.calls ++ [.start] := by
  rw [← makes_starting c here w, h]

theorem calls_run (c : Cycle) (here : Location) (w : World) :
    (c.run here w).2.calls = w.calls ++ c.trace here w := by
  cases c.course here w with
  | unpackaged h hrun =>
    simp [hrun, calls_of_package h, trace, runningAt, startingAt, copyingAt, after?, h]
  | uncopied h h' hrun =>
    simp [hrun, calls_of_copying h', calls_of_package h, trace, runningAt, startingAt, copyingAt,
      after?, h, h']
  | unstarted h h' h'' hrun =>
    simp [hrun, calls_of_starting h'', calls_of_copying h', calls_of_package h, trace, runningAt,
      startingAt, copyingAt, after?, h, h', h'']
  | ended h h' h'' hrun hcalls =>
    rw [hrun, hcalls, makes_stopping, calls_whileRunning, calls_of_starting h'',
      calls_of_copying h', calls_of_package h]
    simp [trace, runningAt, startingAt, copyingAt, after?, h, h', h'']

/-- A run ends with the first fault in the order of the phases. -/
theorem fst_run (c : Cycle) (here : Location) (w : World) :
    match Phase.all.findSome? (c.faultIn here w) with
    | some f => (c.run here w).1 = .error f
    | none => ∃ deployments, (c.run here w).1 = .ok ⟨Phase.all, deployments⟩ := by
  cases c.course here w with
  | unpackaged h hrun => simp [hrun, Phase.all, faultIn, failureOf, h]
  | uncopied h h' hrun => simp [hrun, Phase.all, faultIn, failureOf, copyingAt, after?, h, h']
  | unstarted h h' h'' hrun =>
    simp [hrun, Phase.all, faultIn, failureOf, startingAt, copyingAt, after?, h, h', h'']
  | @ended w₁ w₂ w₃ w' h h' h'' hrun =>
    rw [hrun, whileRunning_apply]
    have hrunning : c.runningAt here w = some w₃ := by
      simp [runningAt, startingAt, copyingAt, after?, h, h', h'']
    have hearly : c.faultIn here w .package = none ∧ c.faultIn here w .copy = none ∧
        c.faultIn here w .start = none := by
      simp [faultIn, startingAt, copyingAt, after?, failureOf, h, h', h'']
    obtain ⟨hpackage, hcopy, hstart⟩ := hearly
    simp only [Phase.all, List.findSome?_cons, List.findSome?_nil, hpackage, hcopy, hstart]
    simp only [faultIn, stoppingAt, hrunning, Option.map_some, Option.bind_some]
    cases (c.requesting here w₃).1 with
    | error f => rfl
    | ok bodies =>
      simp only [Except.bind, Except.toOption, Option.bind_some, failureOf]
      cases verifyAll c.plan.expected (c.plan.deployments.zip bodies) with
      | error f => rfl
      | ok ds =>
        cases (c.stopping here (c.requesting here w₃).2).1 with
        | error f => rfl
        | ok => exact ⟨ds, rfl⟩

theorem startingAt_eq_some_iff {w₂ : World} :
    c.startingAt here w = some w₂ ↔
      ∃ w₁, c.package here w = (.ok (), w₁) ∧ c.copying here w₁ = (.ok (), w₂) := by
  simp only [startingAt, copyingAt, Option.bind_eq_some_iff, after?_eq_some_iff, Unique.exists_iff,
    PUnit.default_eq_unit]

theorem runningAt_eq_some_iff {w₃ : World} :
    c.runningAt here w = some w₃ ↔
      ∃ w₂, c.startingAt here w = some w₂ ∧ c.starting here w₂ = (.ok (), w₃) := by
  simp only [runningAt, Option.bind_eq_some_iff, after?_eq_some_iff, Unique.exists_iff,
    PUnit.default_eq_unit]

theorem startingAt_of_runningAt (h : (c.runningAt here w).isSome) :
    (c.startingAt here w).isSome := by
  obtain ⟨w₃, h⟩ := Option.isSome_iff_exists.1 h
  obtain ⟨w₂, h, -⟩ := runningAt_eq_some_iff.1 h
  rw [h]
  rfl

theorem faultIn_start_isSome_iff :
    (c.faultIn here w .start).isSome ↔
      (c.startingAt here w).isSome ∧ ¬ (c.runningAt here w).isSome := by
  rw [faultIn, runningAt]
  cases c.startingAt here w with
  | none => simp
  | some w₂ =>
    obtain ⟨f, w', h⟩ | ⟨⟨⟩, w', h⟩ := c.starting.error_or_ok here w₂
    all_goals simp [after?, failureOf, h]

theorem isRequest_packagerCalls {x : Call} (h : x ∈ c.packagerCalls) : ¬ isRequest x := by
  rw [packagerCalls] at h
  split at h <;> simp_all [isRequest]

theorem server_trace :
    (c.trace here w).filter isServerCall =
      (if (c.startingAt here w).isSome then [.start] else []) ++
        if (c.runningAt here w).isSome then [.stop] else [] := by
  have hpackager : c.packagerCalls.filter isServerCall = [] := by
    rw [packagerCalls]
    split <;> rfl
  rw [trace, List.filter_append, List.filter_append, hpackager, List.nil_append]
  congr 1
  · split <;> rfl
  · cases c.runningAt here w with
    | none => rfl
    | some w₃ =>
      have hrequests : ((requested c.transport here c.plan.deployments w₃).map
          (Call.request ·.url)).filter isServerCall = [] := by
        simp [List.filter_eq_nil_iff, isServerCall]
      simp only [List.filter_append, hrequests]
      rfl

end Worlds

/-- What a run keeps to, whatever the packager, the server and the pages do. -/
structure Protocol (c : Cycle) (here : Location) (w : World) (calls : List Call) : Prop where
  server : calls.filter isServerCall ∈ [[], [.start], [.start, .stop]]
  start_alone : calls.filter isServerCall = [.start] ↔ (c.faultIn here w .start).isSome
  start_after : .start ∈ calls → ∃ w₁ m₂, c.packaging here w = (.ok (), w₁) ∧
    c.plan.Present here w₁.machine.disk ∧ copyToServer c.plan here w₁.machine = (.ok (), m₂)
  untouched : (c.package here w).2 = (c.packaging here w).2 ∧
    (¬ ((c.packaging here w).1 = .ok () ∧
        c.plan.Present here (c.packaging here w).2.machine.disk) →
      (c.run here w).2 = (c.packaging here w).2)
  requests : (∀ x ∈ calls, ¬ isRequest x) ∨ ∃ w₃ before made,
    c.runningAt here w = some w₃ ∧
    calls = before ++ .start :: made.map (.request ·.url) ++ [.stop] ∧
    (∀ x ∈ before, ¬ isRequest x) ∧ made <+: c.plan.deployments ∧
    ∀ done d more, made = done ++ d :: more →
      ∃ bodies w', requestAll c.transport done here w₃ = (.ok bodies, w')
  fault : ∀ f, (c.run here w).1 = .error f ↔
    [Phase.package, .copy, .start, .request, .verify, .stop].findSome? (c.faultIn here w) = some f
  report : (∀ phase, c.faultIn here w phase = none) ↔ ∃ deployments, (c.run here w).1 =
    .ok ⟨[.package, .copy, .start, .request, .verify, .stop], deployments⟩

theorem trace_of_runningAt {w₃ : World} (h : c.runningAt here w = some w₃) :
    c.trace here w = c.packagerCalls ++ .start ::
      (requested c.transport here c.plan.deployments w₃).map (.request ·.url) ++ [.stop] := by
  have hstarting := startingAt_of_runningAt (Option.isSome_of_eq_some h)
  simp [trace, h, hstarting]

theorem not_isRequest_of_trace {x : Call} (h : c.runningAt here w = none)
    (hx : x ∈ c.trace here w) : ¬ isRequest x := by
  rw [trace, h, List.append_nil, List.mem_append] at hx
  cases hx with
  | inl hx => exact isRequest_packagerCalls hx
  | inr hx =>
    split at hx
    · obtain rfl := List.mem_singleton.1 hx
      decide
    · simp at hx

theorem snd_run_of_package {f : Fault} (h : (c.package here w).1 = .error f) :
    (c.run here w).2 = (c.packaging here w).2 := by
  have hpackage : c.package here w = (.error f, (c.packaging here w).2) := Prod.ext h snd_package
  rw [run_eq, bind_apply_error hpackage]

/-- A run keeps to the protocol. -/
theorem run_protocol (c : Cycle) (here : Location) (w : World) :
    ∃ calls, (c.run here w).2.calls = w.calls ++ calls ∧ c.Protocol here w calls := by
  refine ⟨c.trace here w, calls_run c here w, ?_⟩
  constructor
  case server =>
    rw [server_trace]
    cases hrunning : (c.runningAt here w).isSome with
    | true => simp [startingAt_of_runningAt hrunning]
    | false => cases (c.startingAt here w).isSome <;> simp
  case start_alone =>
    rw [server_trace, faultIn_start_isSome_iff]
    cases hrunning : (c.runningAt here w).isSome with
    | true => simp [startingAt_of_runningAt hrunning]
    | false => cases (c.startingAt here w).isSome <;> simp
  case start_after =>
    intro hstart
    have hserver : .start ∈ (c.trace here w).filter isServerCall := List.mem_filter.2 ⟨hstart, rfl⟩
    rw [server_trace] at hserver
    have hsome : (c.startingAt here w).isSome := by
      by_contra hnone
      cases hrunning : (c.runningAt here w).isSome with
      | true => exact hnone (startingAt_of_runningAt hrunning)
      | false => simp [hnone, hrunning] at hserver
    obtain ⟨w₂, hw₂⟩ := Option.isSome_iff_exists.1 hsome
    obtain ⟨w₁, hpackage, hcopying⟩ := startingAt_eq_some_iff.1 hw₂
    obtain ⟨hpackaging, hpresent⟩ := package_eq_ok_iff.1 hpackage
    obtain ⟨m₂, hm₂, -⟩ := Work.lift_eq_ok_iff.1 hcopying
    exact ⟨w₁, m₂, hpackaging, hpresent, hm₂⟩
  case untouched =>
    refine ⟨snd_package, fun hnot => ?_⟩
    cases hpackage : (c.package here w).1 with
    | error f => exact snd_run_of_package hpackage
    | ok =>
      obtain ⟨hpackaging, hpresent⟩ := package_eq_ok_iff.1 (Prod.ext hpackage rfl)
      rw [hpackaging] at hnot
      exact absurd ⟨rfl, hpresent⟩ hnot
  case requests =>
    cases hrunning : c.runningAt here w with
    | none => exact .inl fun x hx => not_isRequest_of_trace hrunning hx
    | some w₃ =>
      exact .inr ⟨w₃, c.packagerCalls, requested c.transport here c.plan.deployments w₃, rfl,
        trace_of_runningAt hrunning, fun x hx => isRequest_packagerCalls hx,
        requested_prefix _ _ _, fun done d more hmade => requestAll_of_requested hmade⟩
  case fault =>
    intro f
    have hrun := fst_run c here w
    rw [Phase.all] at hrun
    split at hrun
    · rename_i f' hfault
      rw [hrun, hfault, Except.error.injEq, Option.some.injEq]
    · rename_i hnone
      obtain ⟨ds, hrun⟩ := hrun
      rw [hrun, hnone]
      simp
  case report =>
    have hrun := fst_run c here w
    have hall : (∀ phase, c.faultIn here w phase = none) ↔
        Phase.all.findSome? (c.faultIn here w) = none := by
      rw [List.findSome?_eq_none_iff]
      exact ⟨fun h phase _ => h phase, fun h phase => h phase (by cases phase <;> decide)⟩
    rw [hall]
    split at hrun
    · rename_i f hfault
      rw [hfault, hrun]
      simp
    · rename_i hnone
      exact ⟨fun _ => hrun, fun _ => hnone⟩

end Cycle

end Deploy

end GemStaging
