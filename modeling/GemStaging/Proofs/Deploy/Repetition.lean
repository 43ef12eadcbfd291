import GemStaging.Proofs.Deploy.Reshipping

/-!
Running a deploy cycle again. The second run finds every deployment where the first one has put it
and writes every page that it is answered where the first one has written the same, so that it
reports the same and leaves the disk as it finds it (`Cycle.run_repeats`).
-/

namespace GemStaging

open Effect Disk GemStaging.Path

variable {here : Location}

/-- After other requests the transport answers a list of addresses alike. -/
def Http.Transport.Alike (t : Http.Transport) (urls earlier earlier' : List String) : Prop :=
  ∀ done url more, urls = done ++ url :: more →
    t.answer (earlier ++ done) url = t.answer (earlier' ++ done) url

theorem Http.Transport.Alike.cons {t : Http.Transport} {url : String}
    {urls earlier earlier' : List String} (h : t.Alike (url :: urls) earlier earlier') :
    t.answer earlier url = t.answer earlier' url ∧
      t.Alike urls (earlier ++ [url]) (earlier' ++ [url]) := by
  refine ⟨by simpa using h [] url urls rfl, fun done next more hsplit => ?_⟩
  have htail := h (url :: done) next more (by rw [hsplit, List.cons_append])
  rwa [List.append_assoc, List.append_assoc]

def Work.Quiet (here : Location) (e : Work Unit) : Prop :=
  ∀ m, ∃ m', e here m = (.ok (), m') ∧ m'.disk = m.disk

namespace Deploy

/-- The server can always be started and stopped, and neither changes the disk. -/
structure Server.Quiet (server : Server) (here : Location) : Prop where
  start : ∀ calls, Work.Quiet here (server.start calls)
  stop : ∀ calls, Work.Quiet here (server.stop calls)

/-- Whatever is copied may be written, and where a result's path moves up again out of an exploded
directory that is copied, it moves out of directories that are there. -/
structure Plan.Repeatable (plan : Plan) (here : Location) (c : Disk) : Prop extends
    plan.Separate here where
  writable : ∀ x ∈ plan.deployments, c.Rewritable (goal here (plan.source x.form))
  passed : (∃ x ∈ plan.deployments, x.form = .unpacked) → ∀ x ∈ plan.deployments,
    ∀ y ∈ stops here x.result, goal here plan.exploded <+: y → c.get? y = some .directory

section Keeping
variable {plan : Plan} {b c : Disk} {x z : Deployment}

def KeepsSettled (plan : Plan) (here : Location) (b c d : Disk) : Prop :=
  ∀ x ∈ plan.deployments, plan.Settled here b x c → plan.Settled here b x d

instance : IsPreorder Disk (KeepsSettled plan here b) where
  refl _ _ _ h := h
  trans _ _ _ h h' x hx hsettled := h' x hx (h x hx hsettled)

theorem Plan.Repeatable.get?_eq_none (hplan : plan.Repeatable here c) (hcb : c.Grows b)
    {d e : Disk} (hx : x ∈ plan.deployments) (hz : z ∈ plan.deployments)
    (hsettled : plan.Settled here b x d) {rest : Location}
    (hspared : SparedAt (goal here (plan.source x.form)) d e)
    (hconfined : ∀ loc, loc ∉ stops here z.result → e.get? loc = d.get? loc)
    (hnone : d.get? (goal here (plan.source x.form) ++ rest) = none) :
    e.get? (goal here (plan.source x.form) ++ rest) = none := by
  obtain ⟨hmade, hheld, -⟩ := hsettled
  cases hform : x.form with
  | packed =>
    rw [hform] at hmade hheld hspared hnone
    obtain ⟨content, mode, hfile⟩ := hmade
    have hsource : d.get? (goal here (plan.source .packed)) = some (.file content mode) := by
      have htop := congrFun hheld.kept []
      simp only [under, List.append_nil] at htop
      exact htop.trans hfile
    have hrest : rest ≠ [] := by
      rintro rfl
      rw [List.append_nil, hsource] at hnone
      cases hnone
    exact get?_append_of_ne (by simp [hspared.file_iff.2 hsource]) hrest
  | unpacked =>
    rw [hform] at hheld hnone
    by_cases hstop : goal here (plan.source .unpacked) ++ rest ∈ stops here z.result
    · have hdir := hplan.passed ⟨x, hx, hform⟩ z hz _ hstop (List.prefix_append _ _)
      rw [hheld.grown.directory (hcb.directory hdir)] at hnone
      cases hnone
    · rw [hconfined _ hstop, hnone]

theorem writeText_keepsSettled (hplan : plan.Repeatable here c) (hcb : c.Grows b)
    (hz : z ∈ plan.deployments) (text : String) :
    Moves (KeepsSettled plan here b) here (Files.writeText z.result text) := by
  intro d x hx hsettled
  have hplain := hsettled.held.plain
  have hspares : Moves (Spares (goal here z.result = ·)) here (Files.writeText z.result text) :=
    Files.writeText_spares rfl text
  have hconfined : Moves (Confined (· ∈ stops here z.result)) here
      (Files.writeText z.result text) := Files.writeText_confined (fun _ h => h) text
  obtain ⟨hplain', hspared⟩ := hspares d hplain
  have hsource (rest : Location) : goal here z.result ≠ goal here (plan.source x.form) ++ rest :=
    fun heq => (hplan.results x.form z hz).1 (heq ▸ List.prefix_append _ _)
  have hplace (rest : Location) : goal here z.result ≠ plan.place here x ++ rest := fun heq => by
    refine hplan.outside z hz (heq ▸ ?_)
    rw [Plan.place, List.append_assoc]
    exact List.prefix_append _ _
  refine ⟨hsettled.made, ⟨hplain', hsettled.held.grown.trans (Files.writeText_grows _ _ d), ?_⟩, ?_⟩
  · refine Eq.trans (funext fun rest => ?_) hsettled.held.kept
    cases hd : d.get? (goal here (plan.source x.form) ++ rest) with
    | some f =>
      rw [under, under, hd, (hspared _ (hsource rest)).eq_of_isSome (by rw [hd]; rfl), hd]
    | none =>
      have htop := hspared _ (hsource [])
      rw [List.append_nil] at htop
      rw [under, under, hd,
        hplan.get?_eq_none hcb hx hz hsettled htop (hconfined d hplain).2 hd]
  · intro rest f hf
    have hbefore := hsettled.carried rest f hf
    rw [(hspared _ (hplace rest)).eq_of_isSome (by rw [hbefore]; rfl), hbefore]

end Keeping

namespace Cycle
variable {c : Cycle} {plan : Plan} {t : Http.Transport} {w w' w'' : World}
variable {ds : List Deployment} {bodies : List String}

theorem requestAll_moves {R : Disk → Disk → Prop} [IsPreorder Disk R]
    (hwrite : ∀ d ∈ ds, ∀ text, Moves R here (Files.writeText d.result text)) :
    Moves (OnMachine (OnDisk R)) here (requestAll t ds) := by
  induction ds with
  | nil => exact .pure []
  | cons d rest ih =>
    obtain ⟨hd, hrest⟩ := List.forall_mem_cons.1 hwrite
    rw [requestAll_cons]
    exact .bind (requestOne_moves fun _ => hd _) fun _ => .bind (ih hrest) fun _ => .pure _

theorem requestAll_renews (t : Http.Transport) (ds : List Deployment) :
    Moves (OnMachine (OnDisk Renews)) here (requestAll t ds) :=
  requestAll_moves fun _ _ _ => Files.writeText_renews _ _

theorem requestAll_again (hhere : w.machine.disk.get? here = some .directory)
    (h : requestAll t ds here w = (.ok bodies, w')) :
    ∃ fills, Refilled fills w.machine.disk w'.machine.disk ∧
      ∀ w'', w'.machine.disk.Renews w''.machine.disk →
        t.Alike (ds.map (·.url)) w.machine.requests w''.machine.requests →
        ∃ w₃, requestAll t ds here w'' = (.ok bodies, w₃) ∧
          w₃.machine.disk = w''.machine.disk.refillAll fills := by
  induction ds generalizing w bodies with
  | nil =>
    obtain ⟨rfl, rfl⟩ := ok_inj h
    exact ⟨[], .nil _, fun w'' _ _ => ⟨w'', rfl, rfl⟩⟩
  | cons d rest ih =>
    rw [requestAll_cons] at h
    obtain ⟨body, w₁, hone, h⟩ := bind_eq_ok_iff.1 h
    obtain ⟨more, w₂, hmore, h⟩ := bind_eq_ok_iff.1 h
    obtain ⟨rfl, rfl⟩ := ok_inj h
    obtain ⟨bytes, hanswer, rfl, hwrite, hrequests⟩ := requestOne_eq_ok hone
    obtain ⟨loc, mode, hmode, hfile, hothers, hagain⟩ := Files.writeText_again hhere hwrite
    have hrenews : w₁.machine.disk.Renews w₂.machine.disk := (requestAll_renews t rest).of_eq hmore
    obtain ⟨fills, hrefilled, hrest⟩ := ih
      (((Files.writeText_grows _ _).of_eq hwrite).directory hhere) hmore
    refine ⟨(loc, Text.encode (keptBody (Text.decodeLossy bytes))) :: fills,
      .cons (.single hmode hfile hothers) hrefilled, fun w'' hrenews' halike => ?_⟩
    obtain ⟨hfirst, halike'⟩ := halike.cons
    obtain ⟨m, hm, hone'⟩ := requestOne_of_answered here (hfirst.symm.trans hanswer)
    rw [hagain w''.machine.disk (trans_of Renews hrenews hrenews')] at hone'
    obtain ⟨w₄, hw₄, hdisk₄, hrequests₄⟩ : ∃ w₄, requestOne t d here w'' =
        (.ok (Text.decodeLossy bytes), w₄) ∧
        w₄.machine.disk = w''.machine.disk.refill loc
          (Text.encode (keptBody (Text.decodeLossy bytes))) ∧
        w₄.machine.requests = w''.machine.requests ++ [d.url] := ⟨_, hone', rfl, hm⟩
    rw [← hrequests, ← hrequests₄] at halike'
    obtain ⟨w₃, hmore', hdisk⟩ := hrest w₄
      (hdisk₄ ▸ trans_of Renews hrenews' (.refill _ _ _)) halike'
    refine ⟨w₃, ?_, by rw [hdisk, hdisk₄]; rfl⟩
    rw [requestAll_cons_of_ok hw₄, hmore']
    rfl

section Quiet

theorem announced_quiet {act : List Call → Work Unit} (h : ∀ calls, Work.Quiet here (act calls))
    (phase : Phase) (what : String) (x : Call) (w : World) :
    ∃ w', ((liftM (announce phase what) : Run Unit) >>= fun _ => Run.call x act) here w =
        (.ok (), w') ∧ w'.machine.disk = w.machine.disk := by
  obtain ⟨w₁, ⟨hdisk, -⟩, -, hannounce⟩ := announce_bind phase what here w
  obtain ⟨m, hact, hdisk'⟩ := h (w₁.calls ++ [x]) w₁.machine
  rw [hannounce, Run.call_apply, hact]
  exact ⟨_, rfl, hdisk'.trans hdisk⟩

variable (hserver : c.server.Quiet here)
include hserver

theorem starting_quiet (w : World) :
    ∃ w', c.starting here w = (.ok (), w') ∧ w'.machine.disk = w.machine.disk :=
  announced_quiet hserver.start _ _ _ w

theorem finish_quiet (deployments : List DeploymentReport) (w : World) :
    ∃ w', c.finish (.ok deployments) here w = (.ok ⟨Phase.all, deployments⟩, w') ∧
      w'.machine.disk = w.machine.disk := by
  obtain ⟨w', hstop, hdisk⟩ := announced_quiet hserver.stop .stop c.server.name .stop w
  obtain ⟨⟨⟩, w₁, hannounce, hcall⟩ := bind_eq_ok_iff.1 hstop
  refine ⟨w', ?_, hdisk⟩
  rw [finish, bind_apply_ok hannounce, bind_apply_ok (attempt_of_eq hcall)]
  rfl

end Quiet

theorem run_eq_ok_iff {report : Report} :
    c.run here w = (.ok report, w') ↔ ∃ w₁ w₂ w₃ bodies w₄ deployments,
      c.package here w = (.ok (), w₁) ∧ c.copying here w₁ = (.ok (), w₂) ∧
      c.starting here w₂ = (.ok (), w₃) ∧ c.requesting here w₃ = (.ok bodies, w₄) ∧
      verifyAll c.plan.expected (c.plan.deployments.zip bodies) = .ok deployments ∧
      c.finish (.ok deployments) here w₄ = (.ok report, w') := by
  rw [run_eq]
  constructor
  · intro h
    obtain ⟨⟨⟩, w₁, h₁, h⟩ := bind_eq_ok_iff.1 h
    obtain ⟨⟨⟩, w₂, h₂, h⟩ := bind_eq_ok_iff.1 h
    obtain ⟨⟨⟩, w₃, h₃, h⟩ := bind_eq_ok_iff.1 h
    rw [bind_apply_ok attempt_apply, whileRunning_apply] at h
    obtain ⟨w₅, hfinish, -⟩ := finish_apply c here (c.requesting here w₃).2
      ((c.requesting here w₃).1.bind fun bodies =>
        verifyAll c.plan.expected (c.plan.deployments.zip bodies))
    obtain ⟨f, w₄, h₄⟩ | ⟨bodies, w₄, h₄⟩ := c.requesting.error_or_ok here w₃
    · rw [h₄] at h hfinish
      cases (Prod.mk.inj (hfinish.symm.trans h)).1
    · rw [h₄] at h hfinish
      cases hverify : verifyAll c.plan.expected (c.plan.deployments.zip bodies) with
      | error f =>
        simp only [Except.bind, hverify] at h hfinish
        cases (Prod.mk.inj (hfinish.symm.trans h)).1
      | ok deployments =>
        simp only [Except.bind, hverify] at h
        exact ⟨w₁, w₂, w₃, bodies, w₄, deployments, h₁, h₂, h₃, h₄, hverify, h⟩
  · rintro ⟨w₁, w₂, w₃, bodies, w₄, deployments, h₁, h₂, h₃, h₄, hverify, h⟩
    rw [bind_apply_ok h₁, bind_apply_ok h₂, bind_apply_ok h₃, bind_apply_ok attempt_apply,
      whileRunning_apply, h₄]
    simpa only [Except.bind, hverify] using h

theorem runningAt_of_ok {w₁ w₂ w₃ : World} (h₁ : c.package here w = (.ok (), w₁))
    (h₂ : c.copying here w₁ = (.ok (), w₂)) (h₃ : c.starting here w₂ = (.ok (), w₃)) :
    c.runningAt here w = some w₃ :=
  runningAt_eq_some_iff.2 ⟨w₂, startingAt_eq_some_iff.2 ⟨w₁, h₁, h₂⟩, h₃⟩

/-- A deploy cycle repeats to nothing: after a run that succeeded the same run, whose pages are
answered as before, succeeds again with the same report, and leaves the disk as it is. -/
theorem run_repeats {report : Report} (hpackager : c.packager = none)
    (hplan : c.plan.Repeatable here w.machine.disk) (hserver : c.server.Quiet here)
    (htransport : ∀ w₃ w₆, c.runningAt here w = some w₃ → c.runningAt here w' = some w₆ →
      c.transport.Alike (c.plan.deployments.map (·.url)) w₃.machine.requests w₆.machine.requests)
    (hw : w.machine.disk.Plain) (hhere : w.machine.disk.get? here = some .directory)
    (h : c.run here w = (.ok report, w')) :
    ∃ w'', c.run here w' = (.ok report, w'') ∧ w''.machine.disk = w'.machine.disk := by
  obtain ⟨w₁, w₂, w₃, bodies, w₄, deployments, h₁, h₂, h₃, h₄, hverify, h⟩ := run_eq_ok_iff.1 h
  obtain ⟨-, hpresent⟩ := package_eq_ok_iff.1 h₁
  obtain rfl : w = w₁ := by rw [← snd_package_of_none hpackager here w, h₁]
  have hrunning := runningAt_of_ok h₁ h₂ h₃
  obtain ⟨m₂, hcopied, rfl⟩ := Work.lift_eq_ok_iff.1 h₂
  obtain ⟨b, hwb, hsettled, hcopyAgain⟩ :=
    Plan.copyToServer_again hplan.toSeparate hw hhere hplan.writable hcopied
  obtain ⟨w₃', h₃', hstarted⟩ := starting_quiet hserver { w with machine := m₂ }
  obtain rfl : w₃' = w₃ := (ok_inj (h₃'.symm.trans h₃)).2
  obtain ⟨w₅, h₅, hfinished⟩ := finish_quiet hserver deployments w₄
  obtain ⟨rfl, rfl⟩ := ok_inj (h.symm.trans h₅)
  -- all is settled at the end, and the files of the results are filled with what they hold
  have hg₁ : w.machine.disk.Grows m₂.disk :=
    (copyToServer_moves (Files.ensureDir_grows _) (fun _ _ => Files.copyFile_grows _ _)
      fun _ _ => Files.copyTree_grows _ _).of_eq hcopied
  have hg₂ : w₃'.machine.disk.Grows w₄.machine.disk := ((requestAll_renews _ _).of_eq h₄).grows
  have hkept : KeepsSettled c.plan here b w₃'.machine.disk w₄.machine.disk :=
    (requestAll_moves fun x hx text => writeText_keepsSettled hplan hwb hx text).of_eq h₄
  obtain ⟨fills, hrefilled, hrequestAgain⟩ :=
    requestAll_again (hstarted ▸ hg₁.directory hhere) h₄
  rw [hstarted] at hg₂ hkept
  have hg := hg₁.trans hg₂
  have hend : ∀ x ∈ c.plan.deployments, c.plan.Settled here b x w'.machine.disk := fun x hx =>
    hfinished ▸ hkept x hx (hsettled x hx)
  have hpackage : c.package here w' = (.ok (), w') := by
    refine package_eq_ok_iff.2 ⟨by rw [packaging, hpackager]; rfl, ?_⟩
    rw [hfinished]
    exact ⟨hg.isFileAt hhere hpresent.1, fun hform => hg.isDirAt (hpresent.2 hform)⟩
  obtain ⟨m₅, hcopyOk, hdisk₅⟩ := hcopyAgain w'.machine (hfinished ▸ hg₂) hend
  have hcopy : c.copying here w' = (.ok (), { w' with machine := m₅ }) :=
    Work.lift_eq_ok_iff.2 ⟨m₅, hcopyOk, rfl⟩
  obtain ⟨w₆, hstart, hdisk₆⟩ := starting_quiet hserver { w' with machine := m₅ }
  have hdisk : w₆.machine.disk = w₄.machine.disk := hdisk₆.trans (hdisk₅.trans hfinished)
  obtain ⟨w₇, hrequest, hdisk₇⟩ := hrequestAgain w₆ (hdisk ▸ .refl _)
    (htransport _ _ hrunning (runningAt_of_ok hpackage hcopy hstart))
  obtain ⟨w₈, hfinish, hdisk₈⟩ := finish_quiet hserver deployments w₇
  refine ⟨w₈, run_eq_ok_iff.2 ⟨w', _, w₆, bodies, w₇, deployments, hpackage, hcopy, hstart,
    hrequest, hverify, hfinish⟩, ?_⟩
  rw [hdisk₈, hdisk₇, hdisk, refillAll_eq_self hrefilled.filled, hfinished]

section Samples

def answered (config : Section) (server : Server) : Cycle where
  plan := .resolve ⟨"/"⟩ { config with expected := ["ok"] }
  packager := none
  server
  transport := ⟨fun _ _ => .ok (Text.encode "ok")⟩

theorem alike_answered (config : Section) (server : Server) (urls earlier earlier' : List String) :
    (answered config server).transport.Alike urls earlier earlier' := fun _ _ _ _ => rfl

def idleServer : Server := ⟨"s", fun _ => pure (), fun _ => pure ()⟩

/-- A server that writes down, when it is started, how many calls were made. -/
def countingServer : Server :=
  { idleServer with
    start := fun calls => Effect.modify fun m =>
      { m with disk := m.disk.put [] "log" (.file (calls.map fun _ => 0) .data) } }

/-- A result behind a directory that is missing in the exploded one. -/
def resultPastMissing : Section :=
  { bothForms ⟨"d"⟩ with deployments := [⟨"u", .unpacked, ⟨"e/y/../../r"⟩⟩] }

def packagedWorld : World where
  machine := packagedWith []

theorem plain_packagedWorld : packagedWorld.machine.disk.Plain := plain_packagedWith (by decide)

instance {p : Form → Prop} [∀ form, Decidable (p form)] : Decidable (∀ form, p form) :=
  decidable_of_iff (p .packed ∧ p .unpacked)
    ⟨fun ⟨hpacked, hunpacked⟩ form => by cases form <;> assumption, fun h => ⟨h _, h _⟩⟩

theorem separate_bothForms : (answered (bothForms ⟨"d"⟩) idleServer).plan.Separate [] :=
  Plan.separate_resolve (by decide) (by decide +kernel) (by decide +kernel) (by decide +kernel)

theorem rewritable_packagedWith {entries : List (Location × String × Entry)}
    (h : ∀ e ∈ packaged ++ entries, ∀ content mode, e.2.2 = .file content mode → mode.writable)
    (place : Location) : (packagedWith entries).disk.Rewritable place := by
  intro rest content mode hfile
  rcases mem_of_get?_diskOf hfile with hroot | ⟨dir, name, hmem, -⟩
  · rw [hroot, get?_root] at hfile
    cases hfile
  · exact h _ hmem content mode rfl

theorem run_repeats_sample : ∃ report w' w'',
    (answered (bothForms ⟨"d"⟩) idleServer).run [] packagedWorld = (.ok report, w') ∧
      (answered (bothForms ⟨"d"⟩) idleServer).run [] w' = (.ok report, w'') ∧
      w''.machine.disk = w'.machine.disk := by
  have hok : ((answered (bothForms ⟨"d"⟩) idleServer).run [] packagedWorld).1.isOk := by
    decide +kernel
  have hplan : (answered (bothForms ⟨"d"⟩) idleServer).plan.Repeatable []
      packagedWorld.machine.disk :=
    { separate_bothForms with
      writable := fun _ _ => rewritable_packagedWith (by simp [packaged, Mode.data]) _
      passed := fun _ => by decide +kernel }
  have hserver : idleServer.Quiet [] := ⟨fun _ m => ⟨m, rfl, rfl⟩, fun _ m => ⟨m, rfl, rfl⟩⟩
  rcases hrun : (answered (bothForms ⟨"d"⟩) idleServer).run [] packagedWorld with ⟨f | report, w'⟩
  · rw [hrun] at hok
    cases hok
  · obtain ⟨w'', hagain, hdisk⟩ := run_repeats rfl hplan hserver
      (fun _ _ _ _ => alike_answered _ _ _ _ _) plain_packagedWorld (get?_root _) hrun
    exact ⟨report, w', w'', rfl, hagain, hdisk⟩

/-- A cycle without a packager whose parties are there, and whose server always starts and stops,
succeeds. -/
structure Succeeds (c : Cycle) (w : World) : Prop where
  unpackaged : c.packager = none
  separate : c.plan.Separate []
  served : ∀ calls m,
    (c.server.start calls [] m).1 = .ok () ∧ (c.server.stop calls [] m).1 = .ok ()
  alike : ∀ urls earlier earlier', c.transport.Alike urls earlier earlier'
  plain : w.machine.disk.Plain
  ok : (c.run [] w).1.isOk

/-- A cycle that succeeded leaves another disk when it is run again. -/
def Unrepeated (c : Cycle) (w : World) : Prop :=
  Succeeds c w ∧ (c.run [] (c.run [] w).2).2.machine.disk ≠ (c.run [] w).2.machine.disk

/-- A cycle that succeeded fails when it is run again. -/
def Refused (c : Cycle) (w : World) : Prop :=
  Succeeds c w ∧ ¬ (c.run [] (c.run [] w).2).1.isOk

theorem unrepeated_of_get? {c : Cycle} {w : World} (loc : Location) (hc : Succeeds c w)
    (h : (c.run [] (c.run [] w).2).2.machine.disk.get? loc ≠
      (c.run [] w).2.machine.disk.get? loc) : Unrepeated c w :=
  ⟨hc, fun heq => h (congrArg (Disk.get? · loc) heq)⟩

theorem succeeds_answered {config : Section} {server : Server} {w : World}
    (hplan : (answered config server).plan.Separate [])
    (hserver : ∀ calls m,
      (server.start calls [] m).1 = .ok () ∧ (server.stop calls [] m).1 = .ok ())
    (hw : w.machine.disk.Plain) (hok : ((answered config server).run [] w).1.isOk) :
    Succeeds (answered config server) w :=
  ⟨rfl, hplan, hserver, alike_answered config server, hw, hok⟩

/-- A world in which the archive may not be written. -/
def sealedWorld : World where
  machine := packagedWith [([], "a.war", .file [1] ⟨false, false, true⟩)]

/-- A server that writes something else when it is started again, a directory that is made for a
result in the exploded directory and copied by the second run, and an archive that may not be
written, nor may its copy. -/
theorem unrepeated_samples :
    Unrepeated (answered (bothForms ⟨"d"⟩) countingServer) packagedWorld ∧
      Unrepeated (answered resultPastMissing idleServer) packagedWorld ∧
      Refused (answered (bothForms ⟨"d"⟩) idleServer) sealedWorld := by
  refine ⟨?_, ?_, ?_⟩
  · exact unrepeated_of_get? ["log"] (succeeds_answered separate_bothForms (fun _ _ => ⟨rfl, rfl⟩)
      plain_packagedWorld (by decide +kernel)) (by decide +kernel)
  · refine unrepeated_of_get? ["d", "u.war", "y"] (succeeds_answered ?_ (fun _ _ => ⟨rfl, rfl⟩)
      plain_packagedWorld (by decide +kernel)) (by decide +kernel)
    exact Plan.separate_resolve (by decide) (by decide +kernel) (by decide +kernel)
      (by decide +kernel)
  · refine ⟨succeeds_answered separate_bothForms (fun _ _ => ⟨rfl, rfl⟩) ?_ (by decide +kernel),
      by decide +kernel⟩
    exact plain_packagedWith (by decide)

end Samples

end Cycle

end Deploy

end GemStaging
