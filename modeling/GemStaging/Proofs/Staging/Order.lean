import GemStaging.Proofs.Staging.Phases

/-!
The order in which a run works with its fetcher and its installer. Both may do anything, and any
call of theirs may fail. The packages that had no descriptor when the run was planned are fetched
and installed one after another, in the order of the manifest; the first step that fails ends the
run with its fault, and nothing is called or written behind it (`Job.FailFast`).
-/

namespace GemStaging.Staging

open Effect

theorem made_of_append {first second made after : List Call} {c : Call}
    (h : first ++ second = made ++ c :: after) :
    (∃ after', first = made ++ c :: after') ∨
      ∃ made', made = first ++ made' ∧ second = made' ++ c :: after := by
  rcases List.append_eq_append_iff.1 h with ⟨made', hmade, hsecond⟩ | ⟨after', hfirst, hafter⟩
  · exact .inr ⟨made', hmade, hsecond⟩
  · cases after' with
    | nil => exact .inr ⟨[], by simpa using hfirst.symm, hafter.symm⟩
    | cons c' after' =>
      obtain ⟨rfl, -⟩ := List.cons.inj hafter
      exact .inl ⟨after', hfirst⟩

def toStage (actions : List Action) : List Package :=
  (actions.filter (!·.isSkip)).map Action.package

theorem toStage_plan (wanted : List Package) (installed : List String) :
    toStage (plan wanted installed) =
      wanted.filter fun p => !installed.any p.matchesDescriptor := by
  induction wanted with
  | nil => rfl
  | cons p rest ih =>
    have hskip : (Action.decide installed p).isSkip = installed.any p.matchesDescriptor := by
      rw [Bool.eq_iff_iff, Action.isSkip_decide_iff, List.any_eq_true]
    rw [toStage] at ih
    rw [plan] at ih ⊢
    rw [toStage, List.map_cons, List.filter_cons, List.filter_cons, hskip]
    split
    · rw [List.map_cons, Action.package_decide, ih]
    · exact ih

theorem toStage_append (before after : List Action) :
    toStage (before ++ after) = toStage before ++ toStage after := by
  rw [toStage, List.filter_append, List.map_append]
  rfl

namespace Stager
variable {s : Stager} {r : Reservation} {here : Location} {p : Package} {w w' : World}

/-- The calls that get some packages, each with the archive that was fetched for it. -/
def schedule (s : Stager) (obtained : List (Package × Path)) : List Call :=
  obtained.flatMap fun x => [s.fetchCall x.1, s.installCall x.2]

/-- The calls that get one package: nothing is installed where the fetcher fails. -/
def obtainCalls (s : Stager) (here : Location) (p : Package) (w : World) : List Call :=
  s.fetchCall p :: match (s.fetched here p w).1 with
    | .ok archive => [s.installCall archive]
    | .error _ => []

theorem calls_obtain (s : Stager) (here : Location) (p : Package) (w : World) :
    (s.obtain p here w).2.calls = w.calls ++ s.obtainCalls here p w := by
  rw [obtainCalls]
  cases h : s.fetched here p w with
  | mk x m =>
    cases x with
    | error f => rw [obtain_of_fetched_error h]
    | ok archive =>
      have hfst : (s.fetched here p w).1 = .ok archive := by rw [h]
      rw [obtain_of_fetched hfst]

theorem calls_of_obtain {x : Except Fault Unit} (h : s.obtain p here w = (x, w')) :
    w'.calls = w.calls ++ s.obtainCalls here p w := by
  rw [← calls_obtain, h]

theorem calls_of_apply_stage {o : Outcome} (h : s.apply r (.stage p) here w = (.ok o, w')) :
    w'.calls = w.calls ++ s.obtainCalls here p w := by
  obtain ⟨f, w₁, hobtain⟩ | ⟨⟨⟩, w₁, hobtain⟩ := (s.obtain p).error_or_ok here w
  · rw [apply, bind_apply_error hobtain] at h
    cases (Prod.mk.inj h).1
  · rw [apply_stage_of_obtain hobtain] at h
    obtain ⟨-, rfl⟩ := Prod.mk.inj h
    have hcalls := calls_of_obtain hobtain
    exact hcalls

theorem Fails.calls {f : Fault} (h : s.Fails here p w f w') :
    w'.calls = w.calls ++ s.obtainCalls here p w := by
  cases h with
  | fetch hfetched => exact calls_of_obtain (obtain_of_fetched_error hfetched)
  | install hfetched hinstalled =>
    have hobtain := obtain_of_fetched hfetched
    rw [hinstalled] at hobtain
    exact calls_of_obtain hobtain
  | lib hobtain | bin hobtain | descriptor hobtain =>
    have hcalls := calls_of_obtain hobtain
    exact hcalls

theorem obtainCalls_of_ok (h : s.obtain p here w = (.ok (), w')) :
    ∃ archive, (s.fetched here p w).1 = .ok archive ∧
      s.obtainCalls here p w = s.schedule [(p, archive)] := by
  cases hfetched : s.fetched here p w with
  | mk x m =>
    cases x with
    | error f =>
      exact absurd (obtain_of_fetched_error hfetched) (ne_error_of_ok h)
    | ok archive => exact ⟨archive, rfl, by rw [obtainCalls, hfetched]; rfl⟩

theorem obtainCalls_prefix (s : Stager) (here : Location) (p : Package) (w : World) :
    ∃ archive, s.obtainCalls here p w <+: s.schedule [(p, archive)] := by
  rw [obtainCalls]
  cases (s.fetched here p w).1 with
  | ok archive => exact ⟨archive, List.prefix_rfl⟩
  | error f => exact ⟨⟨""⟩, [s.installCall ⟨""⟩], rfl⟩

theorem schedule_append (s : Stager) (first second : List (Package × Path)) :
    s.schedule (first ++ second) = s.schedule first ++ s.schedule second :=
  List.flatMap_append

/-- Where an archive is installed while a package is obtained, it is the one that was fetched right
before. -/
theorem install_mem_obtainCalls {before after : List Call} {archive : Path}
    (h : s.obtainCalls here p w = before ++ s.installCall archive :: after) :
    before = [s.fetchCall p] ∧ (s.fetched here p w).1 = .ok archive := by
  rw [obtainCalls] at h
  cases before with
  | nil => cases h
  | cons c before =>
    obtain ⟨rfl, h⟩ := List.cons.inj h
    cases hx : (s.fetched here p w).1 with
    | error f => simp [hx] at h
    | ok archive' =>
      rw [hx] at h
      cases before with
      | nil =>
        rw [List.cons_append, List.nil_append] at h
        obtain ⟨-, h⟩ := List.cons.inj h
        obtain ⟨rfl, -⟩ := Call.install.inj (List.cons.inj h).1
        exact ⟨rfl, rfl⟩
      | cons c' before =>
        simp at h

/-- Actions that are all carried out make the calls of the packages that they stage, in their
order. -/
theorem calls_of_applyAll {actions : List Action} {os : List Outcome}
    (h : s.applyAll r actions here w = (.ok (os, none), w')) :
    ∃ archives : List Path, archives.length = (toStage actions).length ∧
      w'.calls = w.calls ++ s.schedule ((toStage actions).zip archives) := by
  induction actions generalizing w os with
  | nil =>
    obtain ⟨-, rfl⟩ := ok_inj h
    exact ⟨[], rfl, (List.append_nil _).symm⟩
  | cons a rest ih =>
    obtain ⟨o, w₁, more, ha, hrest, -⟩ := applyAll_cons_eq_ok h
    obtain ⟨archives, hlength, hcalls⟩ := ih hrest
    cases a with
    | skip p name =>
      obtain ⟨m, hskip, -⟩ := apply_skip s r p name w
      obtain ⟨-, rfl⟩ := ok_inj (hskip.symm.trans ha)
      exact ⟨archives, hlength, hcalls⟩
    | stage p =>
      obtain ⟨w₀, x, hobtain, -⟩ := apply_stage_eq_ok ha
      obtain ⟨archive, -, hown⟩ := obtainCalls_of_ok hobtain
      refine ⟨archive :: archives, congrArg (· + 1) hlength, ?_⟩
      rw [hcalls, calls_of_apply_stage ha, hown, List.append_assoc]
      rfl

/-- An archive is installed right after it was fetched for a package, and behind the actions that
stand before that package. -/
theorem install_of_applyAll {actions : List Action} {os : List Outcome} {made after : List Call}
    {archive : Path} (h : s.applyAll r actions here w = (.ok (os, none), w'))
    (hcalls : w'.calls = w.calls ++ (made ++ s.installCall archive :: after)) :
    ∃ front p back os w₁ earlier, actions = front ++ .stage p :: back ∧
      s.applyAll r front here w = (.ok (os, none), w₁) ∧ w₁.calls = w.calls ++ earlier ∧
      made = earlier ++ [s.fetchCall p] ∧ (s.fetched here p w₁).1 = .ok archive := by
  induction actions generalizing w os made with
  | nil =>
    obtain ⟨-, rfl⟩ := ok_inj h
    simp at hcalls
  | cons a rest ih =>
    obtain ⟨o, w₁, more, ha, hrest, -⟩ := applyAll_cons_eq_ok h
    cases a with
    | skip p name =>
      obtain ⟨m, hskip, -⟩ := apply_skip s r p name w
      obtain ⟨-, rfl⟩ := ok_inj (hskip.symm.trans ha)
      obtain ⟨front, q, back, os', w₂, earlier, rfl, hfront, hearlier, hmade, hfetched⟩ :=
        ih hrest hcalls
      exact ⟨.skip p name :: front, q, back, _, w₂, earlier, rfl,
        applyAll_cons_of_ok hskip hfront, hearlier, hmade, hfetched⟩
    | stage p =>
      have hown := calls_of_apply_stage ha
      obtain ⟨archives, -, hlater⟩ := calls_of_applyAll hrest
      rw [hlater, hown, List.append_assoc, List.append_cancel_left_eq] at hcalls
      -- the archive is that of this package, or that of a later one
      obtain ⟨after', hfirst⟩ | ⟨made', rfl, hrest'⟩ := made_of_append hcalls
      · obtain ⟨rfl, hfetched⟩ := install_mem_obtainCalls hfirst
        exact ⟨[], p, rest, [], w, [], rfl, rfl, (List.append_nil _).symm, rfl, hfetched⟩
      · rw [hrest'] at hlater
        obtain ⟨front, q, back, os', w₂, earlier, rfl, hfront, hearlier, rfl, hfetched⟩ :=
          ih hrest hlater
        refine ⟨.stage p :: front, q, back, _, w₂, _, rfl, applyAll_cons_of_ok ha hfront, ?_,
          (List.append_assoc ..).symm, hfetched⟩
        rw [hearlier, hown, List.append_assoc]

end Stager

namespace Job
variable {j : Job} {here : Location} {w w₁ w' : World}

/-- The packages that have no descriptor when the run is planned, in the order of the manifest. -/
def pending (j : Job) (here : Location) (w : World) : List Package :=
  j.packages.filter fun p =>
    !(w.machine.disk.namesAt here j.stager.layout.specsDir).any p.matchesDescriptor

/-- What a run keeps to, whatever its fetcher and its installer do. -/
structure FailFast (j : Job) (here : Location) (w : World) (calls : List Call) : Prop where
  order : ∃ archives : List Path, archives.length = (j.pending here w).length ∧
    calls <+: j.stager.schedule ((j.pending here w).zip archives)
  archive : ∀ made archive after, calls = made ++ j.stager.installCall archive :: after →
    ∃ before p rest w₁ earlier, j.planned here w = before ++ .stage p :: rest ∧
      j.Reaches here w before w₁ ∧ w₁.calls = w.calls ++ earlier ∧
      made = earlier ++ [j.stager.fetchCall p] ∧ (j.stager.fetched here p w₁).1 = .ok archive
  whole : ∀ report, (j.run here w).1 = .ok report →
    ∃ archives : List Path, archives.length = (j.pending here w).length ∧
      calls = j.stager.schedule ((j.pending here w).zip archives)
  skipped : ∀ p name, .skip p name ∈ j.planned here w → ∀ dir, .fetch p dir ∉ calls
  stops : ∀ before p rest w₁ f w', j.planned here w = before ++ .stage p :: rest →
    j.Reaches here w before w₁ → j.stager.Fails here p w₁ f w' →
      j.run here w = (.error f, w') ∧
      ∃ archives : List Path, archives.length = (toStage before).length ∧
        calls = j.stager.schedule ((toStage before).zip archives) ++ j.stager.obtainCalls here p w₁
  course : j.Course here w

theorem toStage_planned (j : Job) (here : Location) (w : World) :
    toStage (j.planned here w) = j.pending here w :=
  toStage_plan _ _

theorem calls_of_reaches {actions : List Action} (h : j.Reaches here w actions w₁) :
    ∃ archives : List Path, archives.length = (toStage actions).length ∧
      w₁.calls = w.calls ++ j.stager.schedule ((toStage actions).zip archives) := by
  obtain ⟨r, m, os, -, hacts⟩ := h
  have hcalls := Stager.calls_of_applyAll hacts
  exact hcalls

theorem install_of_reaches {actions : List Action} {made after : List Call} {archive : Path}
    (h : j.Reaches here w actions w₁)
    (hcalls : w₁.calls = w.calls ++ (made ++ j.stager.installCall archive :: after)) :
    ∃ before p rest w₂ earlier, actions = before ++ .stage p :: rest ∧
      j.Reaches here w before w₂ ∧ w₂.calls = w.calls ++ earlier ∧
      made = earlier ++ [j.stager.fetchCall p] ∧ (j.stager.fetched here p w₂).1 = .ok archive := by
  obtain ⟨r, m, os, hreserve, hacts⟩ := h
  obtain ⟨before, p, rest, os', w₂, earlier, hactions, hbefore, hearlier, hmade, hfetched⟩ :=
    Stager.install_of_applyAll hacts hcalls
  exact ⟨before, p, rest, w₂, earlier, hactions, ⟨r, m, os', hreserve, hbefore⟩, hearlier, hmade,
    hfetched⟩

theorem order_of_reaches {before rest : List Action} {own calls : List Call}
    (archives : List Path) (hplan : j.planned here w = before ++ rest)
    (hbefore : j.Reaches here w before w₁) (hlength : archives.length = (toStage rest).length)
    (hown : own <+: j.stager.schedule ((toStage rest).zip archives))
    (hcalls : w₁.calls ++ own = w.calls ++ calls) :
    ∃ archives : List Path, archives.length = (j.pending here w).length ∧
      calls <+: j.stager.schedule ((j.pending here w).zip archives) := by
  obtain ⟨earlier, hearlier, hmade⟩ := calls_of_reaches hbefore
  rw [hmade, List.append_assoc, List.append_cancel_left_eq] at hcalls
  refine ⟨earlier ++ archives, ?_, ?_⟩
  · rw [← toStage_planned, hplan, toStage_append, List.length_append, List.length_append, hearlier,
      hlength]
  · rw [← toStage_planned, hplan, toStage_append, List.zip_append hearlier.symm,
      Stager.schedule_append, ← hcalls]
    exact (List.prefix_append_right_inj _).2 hown

theorem run_calls (j : Job) (here : Location) (w : World) :
    ((∃ f, (j.run here w).1 = .error f) ∧ (j.run here w).2.calls = w.calls) ∨
    (∃ before p after w₁ f w', j.planned here w = before ++ .stage p :: after ∧
      j.Reaches here w before w₁ ∧ j.stager.Fails here p w₁ f w' ∧
      j.run here w = (.error f, w')) ∨
    ∃ w₁, j.Reaches here w (j.planned here w) w₁ ∧ (j.run here w).2.calls = w₁.calls := by
  cases j.course here w with
  | @unreserved f m hreserve hrun => exact .inl ⟨⟨f, by rw [hrun]⟩, by rw [hrun]⟩
  | unstaged hplan hbefore hfails hrun =>
    exact .inr (.inl ⟨_, _, _, _, _, _, hplan, hbefore, hfails, hrun⟩)
  | unwritten hall hstubs hrun => exact .inr (.inr ⟨_, hall, by rw [hrun]⟩)
  | ended hall hstubs hrun => exact .inr (.inr ⟨_, hall, by rw [hrun]⟩)

section Calls
variable {calls : List Call} (hcalls : (j.run here w).2.calls = w.calls ++ calls)
include hcalls

theorem order_of_run :
    ∃ archives : List Path, archives.length = (j.pending here w).length ∧
      calls <+: j.stager.schedule ((j.pending here w).zip archives) := by
  rcases j.run_calls here w with
    ⟨-, hnone⟩ | ⟨before, p, after, w₁, f, w', hplan, hbefore, hfails, hrun⟩ | ⟨w₁, hall, hrun⟩
  · rw [hnone, List.self_eq_append_right] at hcalls
    rw [hcalls]
    exact ⟨List.replicate _ ⟨""⟩, List.length_replicate, List.nil_prefix⟩
  · -- the packages behind the failure are not fetched, so any paths do for them
    obtain ⟨archive, hown⟩ := j.stager.obtainCalls_prefix here p w₁
    rw [hrun, hfails.calls] at hcalls
    refine order_of_reaches (archive :: List.replicate (toStage after).length ⟨""⟩)
      hplan hbefore ?_ ?_ hcalls
    · rw [List.length_cons, List.length_replicate]
      rfl
    · exact hown.trans (List.prefix_append _ _)
  · rw [hrun, ← List.append_nil w₁.calls] at hcalls
    exact order_of_reaches [] (List.append_nil _).symm hall rfl List.nil_prefix hcalls

theorem archive_of_run {made after : List Call} {archive : Path}
    (hmade : calls = made ++ j.stager.installCall archive :: after) :
    ∃ before p rest w₁ earlier, j.planned here w = before ++ .stage p :: rest ∧
      j.Reaches here w before w₁ ∧ w₁.calls = w.calls ++ earlier ∧
      made = earlier ++ [j.stager.fetchCall p] ∧ (j.stager.fetched here p w₁).1 = .ok archive := by
  rw [hmade] at hcalls
  rcases j.run_calls here w with
    ⟨-, hnone⟩ | ⟨before, p, rest, w₁, f, w', hplan, hbefore, hfails, hrun⟩ | ⟨w₁, hall, hrun⟩
  · simp [hnone] at hcalls
  · obtain ⟨archives, -, hearlier⟩ := calls_of_reaches hbefore
    rw [hrun, hfails.calls, hearlier, List.append_assoc, List.append_cancel_left_eq] at hcalls
    obtain ⟨more, hfirst⟩ | ⟨made', rfl, hown⟩ := made_of_append hcalls
    · rw [hfirst] at hearlier
      obtain ⟨front, q, back, w₂, earlier, rfl, hfront, hw₂, hlast, hfetched⟩ :=
        install_of_reaches hbefore hearlier
      refine ⟨front, q, back ++ .stage p :: rest, w₂, earlier, ?_, hfront, hw₂, hlast, hfetched⟩
      rw [hplan, List.append_assoc, List.cons_append]
    · obtain ⟨rfl, hfetched⟩ := Stager.install_mem_obtainCalls hown
      exact ⟨before, p, rest, w₁, _, hplan, hbefore, hearlier, rfl, hfetched⟩
  · rw [hrun] at hcalls
    exact install_of_reaches hall hcalls

theorem whole_of_run {report : Report} (hreport : (j.run here w).1 = .ok report) :
    ∃ archives : List Path, archives.length = (j.pending here w).length ∧
      calls = j.stager.schedule ((j.pending here w).zip archives) := by
  rcases j.run_calls here w with ⟨⟨f, hf⟩, -⟩ | ⟨_, _, _, _, _, _, -, -, -, hrun⟩ | ⟨w₁, hall, hrun⟩
  · rw [hf] at hreport
    cases hreport
  · rw [hrun] at hreport
    cases hreport
  · obtain ⟨archives, hlength, hmade⟩ := calls_of_reaches hall
    rw [hrun, hmade, List.append_cancel_left_eq] at hcalls
    rw [toStage_planned] at hlength hcalls
    exact ⟨archives, hlength, hcalls.symm⟩

theorem not_fetched_of_skip {p : Package} {name : String}
    (hskip : .skip p name ∈ j.planned here w) (dir : Path) : .fetch p dir ∉ calls := by
  intro hmem
  obtain ⟨archives, -, horder⟩ := order_of_run hcalls
  obtain ⟨⟨q, archive⟩, hq, hcall⟩ := List.mem_flatMap.1 (horder.subset hmem)
  have hpending : p ∈ j.pending here w := by
    rcases List.mem_cons.1 hcall with hfetch | hinstall
    · rw [(Call.fetch.inj hfetch).1]
      exact (List.of_mem_zip hq).1
    · cases List.mem_singleton.1 hinstall
  obtain ⟨q, -, hdecide⟩ := List.mem_map.1 hskip
  obtain rfl : q = p := by
    rw [← Action.package_decide (p := q), hdecide]
    rfl
  have hinstalled : (Action.decide (w.machine.disk.namesAt here j.stager.layout.specsDir) q).isSkip
    := by rw [hdecide]; rfl
  obtain ⟨found, hfound, hmatch⟩ := Action.isSkip_decide_iff.1 hinstalled
  have hbare := (List.mem_filter.1 hpending).2
  rw [Bool.not_eq_true', List.any_eq_false] at hbare
  exact hbare found hfound hmatch

theorem calls_of_fails {before : List Action} {p : Package} {f : Fault}
    (hbefore : j.Reaches here w before w₁) (hfails : j.stager.Fails here p w₁ f w')
    (hrun : j.run here w = (.error f, w')) :
    ∃ archives : List Path, archives.length = (toStage before).length ∧
      calls = j.stager.schedule ((toStage before).zip archives) ++
        j.stager.obtainCalls here p w₁ := by
  obtain ⟨archives, hlength, hearlier⟩ := calls_of_reaches hbefore
  rw [hrun, hfails.calls, hearlier, List.append_assoc, List.append_cancel_left_eq] at hcalls
  exact ⟨archives, hlength, hcalls.symm⟩

theorem failFast_of_run : j.FailFast here w calls where
  order := order_of_run hcalls
  archive _ _ _ hmade := archive_of_run hcalls hmade
  whole _ hreport := whole_of_run hcalls hreport
  skipped _ _ hskip dir := not_fetched_of_skip hcalls hskip dir
  stops before p rest w₁ f w' hplan hbefore hfails := by
    have hrun := run_of_fails hplan hbefore hfails
    exact ⟨hrun, calls_of_fails hcalls hbefore hfails hrun⟩
  course := j.course here w

end Calls

/-- A run makes its calls in the order of its plan and stops at its first fault. -/
theorem run_failFast (j : Job) (here : Location) (w : World) :
    ∃ calls, (j.run here w).2.calls = w.calls ++ calls ∧ j.FailFast here w calls := by
  obtain ⟨calls, hcalls⟩ : ∃ calls, (j.run here w).2.calls = w.calls ++ calls := by
    rcases j.run_calls here w with
      ⟨-, hnone⟩ | ⟨before, p, after, w₁, f, w', -, hbefore, hfails, hrun⟩ | ⟨w₁, hall, hrun⟩
    · exact ⟨[], by rw [hnone, List.append_nil]⟩
    · obtain ⟨archives, -, hearlier⟩ := calls_of_reaches hbefore
      have hcalls := hfails.calls
      rw [hearlier, List.append_assoc] at hcalls
      exact ⟨_, by rw [hrun]; exact hcalls⟩
    · obtain ⟨archives, -, hearlier⟩ := calls_of_reaches hall
      exact ⟨_, hrun.trans hearlier⟩
  exact ⟨calls, hcalls, failFast_of_run hcalls⟩

end Job

end GemStaging.Staging
