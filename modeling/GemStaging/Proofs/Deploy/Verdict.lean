import GemStaging.Proofs.Deploy.Protocol
import GemStaging.Proofs.Text.Decoding

/-!
The verdict of a deploy cycle. Where the server runs, the result of a run is that of its pages: the
first page that cannot be had, or else the first expected text that the first page without it lacks,
or else a report. The texts are looked for in what the bytes of a page are read as, which is the
same as looking for their bytes.
-/

namespace GemStaging.Deploy

open Effect

theorem contains_iff {body mark : String} :
    Text.contains body mark ↔ mark.toList <:+: body.toList :=
  Text.occurs_iff ..

section Verify
variable {body url : String} {expected front back : List String} {e : String}

theorem verify_eq_ok_iff :
    verify body expected url = .ok () ↔ ∀ e ∈ expected, e.toList <:+: body.toList := by
  have hfind : (checks body expected).find? (!·.found) = none ↔
      ∀ e ∈ expected, e.toList <:+: body.toList := by
    simp [checks, ← contains_iff]
  rw [← hfind, verify]
  split <;> simp_all

theorem verify_of_missing (hfront : ∀ x ∈ front, x.toList <:+: body.toList)
    (he : ¬ e.toList <:+: body.toList) :
    verify body (front ++ e :: back) url = .error (.missingExpected e url) := by
  have hfound : ∀ x ∈ front, Text.contains body x := fun x hx => contains_iff.2 (hfront x hx)
  have hmissing : Text.contains body e = false := by
    rw [← Bool.not_eq_true, contains_iff]
    exact he
  have hfind : (checks body (front ++ e :: back)).find? (!·.found) = some ⟨e, false⟩ := by
    refine List.find?_eq_some_iff_append.2 ⟨rfl, checks body front, checks body back, ?_, ?_⟩
    · rw [checks, List.map_append, List.map_cons, hmissing]
      rfl
    · simpa [checks] using hfound
  rw [verify, hfind]

theorem checks_eq (h : ∀ e ∈ expected, e.toList <:+: body.toList) :
    checks body expected = expected.map (⟨·, true⟩) := by
  rw [checks]
  refine List.map_congr_left fun e he => ?_
  rw [contains_iff.2 (h e he)]

end Verify

section Decoded
variable {t : Http.Transport} {url : String} {here : Location} {m : Machine}

/-- Reading the bytes of a page as text leaves the verdict as it is: a text is found exactly where
its own bytes occur in the page. -/
theorem verify_getText {bytes : Bytes} {expected : List String} (source : String)
    (hbytes : (Http.getBytes t url here m).1 = .ok bytes)
    (hexpected : ∀ e ∈ expected, Text.replacement ∉ e.toList) :
    ∃ body, (Http.getText t url here m).1 = .ok body ∧
      (verify body expected source = .ok () ↔ ∀ e ∈ expected, Text.encode e <:+: bytes) ∧
      checks body expected = expected.map fun e => ⟨e, decide (Text.encode e <:+: bytes)⟩ := by
  have hget : Http.getText t url here m =
      (.ok (Text.decodeLossy bytes), (Http.getBytes t url here m).2) :=
    bind_apply_ok (Prod.ext hbytes rfl)
  refine ⟨Text.decodeLossy bytes, by rw [hget], ?_, ?_⟩
  · rw [verify_eq_ok_iff]
    refine forall₂_congr fun e he => ?_
    rw [← contains_iff, Text.contains_decodeLossy_iff (hexpected e he)]
  · rw [checks]
    refine List.map_congr_left fun e he => ?_
    rw [Check.mk.injEq, Bool.eq_iff_iff, decide_eq_true_iff]
    exact ⟨rfl, Text.contains_decodeLossy_iff (hexpected e he)⟩

/-- A lead byte, a character behind it, and one that is never finished. -/
def broken : Bytes := [0xC3, 0xC3, 0xA9, 0xE2, 0x82]

theorem verify_getText_sample :
    ∃ body, (Http.getText ⟨fun _ _ => .ok broken⟩ "" [] ⟨.empty, [], []⟩).1 = .ok body ∧
      checks body ["é", "", "€"] = [⟨"é", true⟩, ⟨"", true⟩, ⟨"€", false⟩] := by
  have hbytes : (Http.getBytes ⟨fun _ _ => .ok broken⟩ "" [] ⟨.empty, [], []⟩).1 = .ok broken := rfl
  have hexpected : ∀ e ∈ ["é", "", "€"], Text.replacement ∉ e.toList := by decide
  obtain ⟨body, hget, -, hchecks⟩ := verify_getText "" hbytes hexpected
  refine ⟨body, hget, hchecks.trans ?_⟩
  decide +kernel

end Decoded

namespace Cycle
variable {expected : List String} {pairs done more : List (Deployment × String)}

theorem verifyAll_cons_of_ok {d : Deployment} {body : String}
    (h : verify body expected d.url = .ok ()) :
    verifyAll expected ((d, body) :: pairs) =
      (verifyAll expected pairs).map (⟨d.name, d.url, d.result, checks body expected⟩ :: ·) := by
  rw [verifyAll, h]
  cases verifyAll expected pairs <;> rfl

theorem verifyAll_of_error {d : Deployment} {body : String} {f : Fault}
    (hdone : ∀ p ∈ done, verify p.2 expected p.1.url = .ok ())
    (h : verify body expected d.url = .error f) :
    verifyAll expected (done ++ (d, body) :: more) = .error f := by
  induction done with
  | nil =>
    rw [List.nil_append, verifyAll, h]
    rfl
  | cons p done ih =>
    have hp := hdone p List.mem_cons_self
    have hrest := ih fun q hq => hdone q (List.mem_cons_of_mem p hq)
    rw [List.cons_append, verifyAll_cons_of_ok hp, hrest]
    rfl

theorem verifyAll_of_ok (h : ∀ p ∈ pairs, verify p.2 expected p.1.url = .ok ()) :
    verifyAll expected pairs =
      .ok (pairs.map fun p => ⟨p.1.name, p.1.url, p.1.result, checks p.2 expected⟩) := by
  induction pairs with
  | nil => rfl
  | cons p pairs ih =>
    have hp := h p List.mem_cons_self
    have hrest := ih fun q hq => h q (List.mem_cons_of_mem p hq)
    rw [verifyAll_cons_of_ok hp, hrest]
    rfl

section Pages
variable (page : String → Except Fault String)

/-- A page that is had can be kept, for every page that the run comes to. -/
def Keeps (t : Http.Transport) (here : Location) : List Deployment → World → Prop
  | [], _ => True
  | d :: rest, w =>
    match page d.url with
    | .ok body => (Files.writeText d.result (keptBody body) here w.machine.disk).1 = .ok () ∧
        Keeps t here rest (requestOne t d here w).2
    | .error _ => True

instance decidableKeeps (t : Http.Transport) (here : Location) :
    ∀ (ds : List Deployment) (w : World), Decidable (Keeps page t here ds w)
  | [], _ => inferInstanceAs (Decidable True)
  | d :: rest, w =>
    have := decidableKeeps t here rest (requestOne t d here w).2
    match h : page d.url with
    | .ok body => decidable_of_iff
        ((Files.writeText d.result (keptBody body) here w.machine.disk).1 = .ok () ∧
          Keeps page t here rest (requestOne t d here w).2) (by rw [Keeps, h])
    | .error _ => isTrue (by rw [Keeps, h]; trivial)

variable {page} {t : Http.Transport} {here : Location}
variable (hpage : ∀ earlier url, (t.answer earlier url).map Text.decodeLossy = page url)
include hpage

theorem fst_requestOne {d : Deployment} {w : World} (hkeeps : ∀ body, page d.url = .ok body →
      (Files.writeText d.result (keptBody body) here w.machine.disk).1 = .ok ()) :
    (requestOne t d here w).1 = page d.url := by
  cases hanswer : t.answer w.machine.requests d.url with
  | error f =>
    obtain ⟨w', hone, -⟩ := requestOne_of_unanswered here hanswer
    rw [hone, ← hpage w.machine.requests, hanswer]
    rfl
  | ok bytes =>
    have hbody : page d.url = .ok (Text.decodeLossy bytes) := by
      rw [← hpage w.machine.requests, hanswer]
      rfl
    obtain ⟨m, -, hone⟩ := requestOne_of_answered here hanswer
    rw [hone, hkeeps _ hbody, hbody]
    rfl

theorem fst_requestAll {ds : List Deployment} {w : World} (hkeeps : Keeps page t here ds w) :
    (requestAll t ds here w).1 = ds.mapM fun d => page d.url := by
  induction ds generalizing w with
  | nil => rfl
  | cons d rest ih =>
    rw [Keeps] at hkeeps
    have hone : (requestOne t d here w).1 = page d.url := fst_requestOne hpage fun body hbody => by
      rw [hbody] at hkeeps
      exact hkeeps.1
    cases hbody : page d.url with
    | error f =>
      rw [hbody] at hone
      rw [requestAll_cons_of_error (Prod.ext hone rfl), List.mapM_cons, hbody]
      rfl
    | ok body =>
      rw [hbody] at hone hkeeps
      rw [requestAll_cons_of_ok (Prod.ext hone rfl), ih hkeeps.2, List.mapM_cons, hbody]
      cases rest.mapM fun d => page d.url <;> rfl

end Pages

section Judging
variable {page : String → Except Fault String} {plan : Plan}

def Meets (expected : List String) (body : String) : Prop :=
  ∀ e ∈ expected, e.toList <:+: body.toList

theorem mapM_of_error {α β : Type} {g : α → Except Fault β} {done more : List α} {x : α} {f : Fault}
    (hdone : ∀ y ∈ done, ∃ b, g y = .ok b) (h : g x = .error f) :
    (done ++ x :: more).mapM g = .error f := by
  induction done with
  | nil =>
    rw [List.nil_append, List.mapM_cons, h]
    rfl
  | cons y done ih =>
    obtain ⟨b, hb⟩ := hdone y List.mem_cons_self
    rw [List.cons_append, List.mapM_cons, hb, ih fun z hz => hdone z (List.mem_cons_of_mem y hz)]
    rfl

theorem mapM_of_ok {α β : Type} {g : α → Except Fault β} {b : α → β} {xs : List α}
    (h : ∀ x ∈ xs, g x = .ok (b x)) : xs.mapM g = .ok (xs.map b) := by
  induction xs with
  | nil => rfl
  | cons x xs ih =>
    rw [List.mapM_cons, h x List.mem_cons_self, ih fun y hy => h y (List.mem_cons_of_mem x hy)]
    rfl

/-- What comes of the pages: a page that cannot be had ends it, and only once all of them were had
they are looked at. -/
def judge (page : String → Except Fault String) (plan : Plan) : Except Fault Report := do
  let bodies ← plan.deployments.mapM fun d => page d.url
  let deployments ← verifyAll plan.expected (plan.deployments.zip bodies)
  return { completed := Phase.all, deployments }

theorem judge_of_unanswered {done more : List Deployment} {d : Deployment} {f : Fault}
    (hplan : plan.deployments = done ++ d :: more)
    (hdone : ∀ x ∈ done, ∃ body, page x.url = .ok body) (hd : page d.url = .error f) :
    judge page plan = .error f := by
  rw [judge, hplan, mapM_of_error hdone hd]
  rfl

theorem judge_of_answered {body : Deployment → String}
    (hanswered : ∀ d ∈ plan.deployments, page d.url = .ok (body d)) :
    judge page plan = (verifyAll plan.expected (plan.deployments.map fun d => (d, body d))).map
      fun deployments => ⟨Phase.all, deployments⟩ := by
  have hzip : plan.deployments.zip (plan.deployments.map body) =
      plan.deployments.map fun d => (d, body d) := by
    have hmaps : (plan.deployments.map id).zip (plan.deployments.map body) =
        plan.deployments.map fun d => (id d, body d) := List.zip_map'
    rwa [List.map_id] at hmaps
  rw [judge, mapM_of_ok hanswered, ← hzip]
  cases h : verifyAll plan.expected (plan.deployments.zip (plan.deployments.map body)) with
  | error f =>
    simp only [bind, Except.bind, h]
    rfl
  | ok ds =>
    simp only [bind, Except.bind, h]
    rfl

theorem exists_body (hanswered : ∀ d ∈ plan.deployments, ∃ body, page d.url = .ok body) :
    ∃ body : Deployment → String, ∀ d ∈ plan.deployments, page d.url = .ok (body d) := by
  refine ⟨fun d => (page d.url).toOption.getD "", fun d hd => ?_⟩
  obtain ⟨body, hbody⟩ := hanswered d hd
  simp only [hbody]
  rfl

theorem judge_of_missing {done more : List Deployment} {d : Deployment} {front back : List String}
    {e body : String} (hanswered : ∀ x ∈ plan.deployments, ∃ body, page x.url = .ok body)
    (hplan : plan.deployments = done ++ d :: more) (hexpected : plan.expected = front ++ e :: back)
    (hdone : ∀ x ∈ done, ∀ body, page x.url = .ok body → Meets plan.expected body)
    (hd : page d.url = .ok body) (hfront : Meets front body) (he : ¬ e.toList <:+: body.toList) :
    judge page plan = .error (.missingExpected e d.url) := by
  obtain ⟨text, htext⟩ := exists_body hanswered
  have hmem : ∀ x ∈ done ++ d :: more, page x.url = .ok (text x) := hplan ▸ htext
  have hbody : text d = body := by
    have hd' := hmem d (by simp)
    rw [hd] at hd'
    exact (Except.ok.inj hd').symm
  have hverified : ∀ p ∈ done.map fun x => (x, text x),
      verify p.2 plan.expected p.1.url = .ok () := by
    intro p hp
    obtain ⟨x, hx, rfl⟩ := List.mem_map.1 hp
    exact verify_eq_ok_iff.2 (hdone x hx _ (hmem x (by simp [hx])))
  have hlacks : verify body plan.expected d.url = .error (.missingExpected e d.url) := by
    rw [hexpected]
    exact verify_of_missing hfront he
  rw [judge_of_answered htext, hplan, List.map_append, List.map_cons, hbody,
    verifyAll_of_error hverified hlacks]
  rfl

theorem judge_of_met {body : Deployment → String}
    (hanswered : ∀ d ∈ plan.deployments, page d.url = .ok (body d))
    (hmet : ∀ d ∈ plan.deployments, Meets plan.expected (body d)) :
    judge page plan = .ok ⟨Phase.all, plan.deployments.map fun d =>
      ⟨d.name, d.url, d.result, plan.expected.map (⟨·, true⟩)⟩⟩ := by
  have hverified : ∀ p ∈ plan.deployments.map fun d => (d, body d),
      verify p.2 plan.expected p.1.url = .ok () := by
    intro p hp
    obtain ⟨d, hd, rfl⟩ := List.mem_map.1 hp
    exact verify_eq_ok_iff.2 (hmet d hd)
  have hreports : plan.deployments.map (fun d => DeploymentReport.mk d.name d.url d.result
      (checks (body d) plan.expected)) = plan.deployments.map fun d =>
        ⟨d.name, d.url, d.result, plan.expected.map (⟨·, true⟩)⟩ := by
    apply List.map_congr_left
    intro d hd
    rw [checks_eq (hmet d hd)]
  rw [judge_of_answered hanswered, verifyAll_of_ok hverified, List.map_map, ← hreports]
  rfl

theorem exists_first {α : Type} {p : α → Prop} {xs : List α} (h : ¬ ∀ x ∈ xs, p x) :
    ∃ done x more, xs = done ++ x :: more ∧ (∀ y ∈ done, p y) ∧ ¬ p x := by
  induction xs with
  | nil => simp at h
  | cons x xs ih =>
    by_cases hx : p x
    · obtain ⟨done, y, more, rfl, hdone, hy⟩ := ih fun hall => h (by simpa [hx] using hall)
      exact ⟨x :: done, y, more, rfl, by simpa [hx] using hdone, hy⟩
    · exact ⟨[], x, xs, rfl, by simp, hx⟩

theorem exists_met_body
    (h : ∀ d ∈ plan.deployments, ∃ body, page d.url = .ok body ∧ Meets plan.expected body) :
    ∃ body : Deployment → String, (∀ d ∈ plan.deployments, page d.url = .ok (body d)) ∧
      ∀ d ∈ plan.deployments, Meets plan.expected (body d) := by
  obtain ⟨text, htext⟩ := exists_body fun d hd => (h d hd).imp fun _ hbody => hbody.1
  refine ⟨text, htext, ?_⟩
  intro d hd
  obtain ⟨body, hbody, hmeets⟩ := h d hd
  rw [htext d hd] at hbody
  obtain rfl := Except.ok.inj hbody
  exact hmeets

theorem answered_of_judge {report : Report} (h : judge page plan = .ok report) :
    ∀ d ∈ plan.deployments, ∃ body, page d.url = .ok body := by
  by_contra hnot
  obtain ⟨done, d, more, hplan, hdone, hd⟩ := exists_first hnot
  cases hpage : page d.url with
  | ok body => exact hd ⟨body, hpage⟩
  | error f =>
    rw [judge_of_unanswered hplan hdone hpage] at h
    cases h

theorem met_of_judge {report : Report} (h : judge page plan = .ok report)
    {body : Deployment → String} (hanswered : ∀ d ∈ plan.deployments, page d.url = .ok (body d)) :
    ∀ d ∈ plan.deployments, Meets plan.expected (body d) := by
  by_contra hnot
  obtain ⟨done, d, more, hplan, hdone, hd⟩ := exists_first hnot
  obtain ⟨front, e, back, hexpected, hfront, he⟩ := exists_first hd
  have hmem : ∀ x ∈ done ++ d :: more, page x.url = .ok (body x) := hplan ▸ hanswered
  have hdone' : ∀ x ∈ done, ∀ text, page x.url = .ok text → Meets plan.expected text := by
    intro x hx text htext
    rw [hmem x (by simp [hx])] at htext
    obtain rfl := Except.ok.inj htext
    exact hdone x hx
  have hmissing := judge_of_missing (answered_of_judge h) hplan hexpected hdone' (hmem d (by simp))
    hfront he
  rw [hmissing] at h
  cases h

theorem judge_ok_iff :
    (∃ report, judge page plan = .ok report) ↔
      ∀ d ∈ plan.deployments, ∃ body, page d.url = .ok body ∧ Meets plan.expected body := by
  constructor
  · rintro ⟨report, hok⟩
    obtain ⟨text, htext⟩ := exists_body (answered_of_judge hok)
    exact fun d hd => ⟨text d, htext d hd, met_of_judge hok htext d hd⟩
  · intro h
    obtain ⟨text, htext, hmet⟩ := exists_met_body h
    exact ⟨_, judge_of_met htext hmet⟩

structure Verdict (page : String → Except Fault String) (plan : Plan)
    (result : Except Fault Report) : Prop where
  sound : (∃ report, result = .ok report) ↔
    ∀ d ∈ plan.deployments, ∃ body, page d.url = .ok body ∧ Meets plan.expected body
  report : ∀ r, result = .ok r → r.deployments = plan.deployments.map fun d =>
    ⟨d.name, d.url, d.result, plan.expected.map (⟨·, true⟩)⟩
  unanswered : ∀ done d more f, plan.deployments = done ++ d :: more →
    (∀ x ∈ done, ∃ body, page x.url = .ok body) → page d.url = .error f → result = .error f
  missing : ∀ done d more body front e back,
    (∀ x ∈ plan.deployments, ∃ body, page x.url = .ok body) →
    plan.deployments = done ++ d :: more → plan.expected = front ++ e :: back →
    (∀ x ∈ done, ∀ body, page x.url = .ok body → Meets plan.expected body) →
    page d.url = .ok body → Meets front body → ¬ e.toList <:+: body.toList →
    result = .error (.missingExpected e d.url)

theorem verdict_judge (page : String → Except Fault String) (plan : Plan) :
    Verdict page plan (judge page plan) := by
  constructor
  case sound => exact judge_ok_iff
  case report =>
    intro r hr
    obtain ⟨text, htext, hmet⟩ := exists_met_body (judge_ok_iff.1 ⟨r, hr⟩)
    rw [judge_of_met htext hmet] at hr
    obtain rfl := Except.ok.inj hr
    rfl
  case unanswered =>
    intro done d more f hplan hdone hd
    exact judge_of_unanswered hplan hdone hd
  case missing =>
    intro done d more body front e back hanswered hplan hexpected hdone hd hfront he
    exact judge_of_missing hanswered hplan hexpected hdone hd hfront he

end Judging

section Run
variable {c : Cycle} {here : Location} {w : World}

theorem fst_run_of_running
    (h : ∀ phase ∈ [Phase.package, .copy, .start, .stop], c.faultIn here w phase = none) :
    ∃ w₃, c.runningAt here w = some w₃ ∧ (c.run here w).1 =
      (c.whileRunning here w₃).1.map fun deployments => ⟨Phase.all, deployments⟩ := by
  simp only [List.forall_mem_cons, List.not_mem_nil] at h
  obtain ⟨hpackage, hcopy, hstart, hstop, -⟩ := h
  cases c.course here w with
  | unpackaged h₁ => simp [faultIn, failureOf, h₁] at hpackage
  | uncopied h₁ h₂ => simp [faultIn, failureOf, copyingAt, after?, h₁, h₂] at hcopy
  | unstarted h₁ h₂ h₃ =>
    simp [faultIn, failureOf, startingAt, copyingAt, after?, h₁, h₂, h₃] at hstart
  | @ended w₁ w₂ w₃ w' h₁ h₂ h₃ hrun =>
    have hrunning : c.runningAt here w = some w₃ := by
      simp [runningAt, startingAt, copyingAt, after?, h₁, h₂, h₃]
    refine ⟨w₃, hrunning, ?_⟩
    rw [faultIn, stoppingAt, hrunning, Option.map_some, Option.bind_some] at hstop
    rw [hrun, whileRunning_apply]
    dsimp only
    cases hstopping : (c.stopping here (c.requesting here w₃).2).1 with
    | error f => rw [hstopping] at hstop; cases hstop
    | ok =>
      cases (c.requesting here w₃).1.bind fun bodies =>
        verifyAll c.plan.expected (c.plan.deployments.zip bodies) <;> rfl

theorem run_verdict {page : String → Except Fault String}
    (hpage : ∀ earlier url, (c.transport.answer earlier url).map Text.decodeLossy = page url)
    (hphases : ∀ phase ∈ [Phase.package, .copy, .start, .stop], c.faultIn here w phase = none)
    (hkeeps : ∀ w₃ ∈ c.runningAt here w, Keeps page c.transport here c.plan.deployments w₃) :
    Verdict page c.plan (c.run here w).1 := by
  obtain ⟨w₃, hrunning, hrun⟩ := fst_run_of_running hphases
  have hjudge : (c.run here w).1 = judge page c.plan := by
    rw [hrun, whileRunning_apply, requesting, fst_requestAll hpage (hkeeps w₃ hrunning), judge]
    cases c.plan.deployments.mapM fun d => page d.url with
    | error f => rfl
    | ok bodies =>
      simp only [bind, Except.bind]
      cases verifyAll c.plan.expected (c.plan.deployments.zip bodies) <;> rfl
  rw [hjudge]
  exact verdict_judge page c.plan

/-- A cycle over two deployments; the page of the second one lacks a text. -/
def twoPages : Cycle where
  plan :=
    { archive := ⟨"/a"⟩
      exploded := ⟨"/e"⟩
      dropins := ⟨"/d"⟩
      deployments := [⟨"p", .packed, ⟨"/d/p.war"⟩, "http://p", ⟨"/r/p"⟩⟩,
        ⟨"q", .packed, ⟨"/d/q.war"⟩, "http://q", ⟨"/r/q"⟩⟩]
      expected := ["", "ok"] }
  packager := none
  server := { name := "s", start := fun _ => pure (), stop := fun _ => pure () }
  transport := ⟨fun _ url => .ok (Text.encode (if url = "http://p" then "ok" else "no"))⟩

def archiveOnly : World where
  machine.disk := Disk.onlyRoot.put [] "a" (.file [1] .data)

theorem run_verdict_sample : ∃ page : String → Except Fault String,
    page "http://q" = .ok "no" ∧
      Verdict page twoPages.plan (twoPages.run [] archiveOnly).1 := by
  refine ⟨fun url => (twoPages.transport.answer [] url).map Text.decodeLossy, ?_, ?_⟩
  · decide +kernel
  · exact run_verdict (fun _ _ => rfl) (by decide +kernel) (by decide +kernel)

end Run

end Cycle

end GemStaging.Deploy
