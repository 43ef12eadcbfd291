import GemStaging.Proofs.Deploy.Evidence
import GemStaging.Proofs.Files.Repeating

/-!
Copying to the server again. Once a deployment was copied, what it is made of stands at its place,
and neither another deployment nor a page that is kept changes that (`Plan.Settled`). Where all
deployments are settled and made of files that may be written, copying them again succeeds and
changes nothing (`Plan.copyToServer_again`).
-/

namespace GemStaging

open Effect Disk GemStaging.Path

variable {here : Location}

namespace Deploy

namespace Plan

/-- The deployments stand in the hot-deploy directory and the results outside it, and what is
copied lies beside that directory and beside the results. -/
structure Separate (plan : Plan) (here : Location) : Prop where
  targets : ∀ x ∈ plan.deployments, x.target = plan.dropins / x.warName
  slashless : ∀ x ∈ plan.deployments, '/' ∉ x.name.toList
  sources : ∀ form, Beside (goal here (plan.source form)) (goal here plan.dropins)
  results : ∀ form, ∀ x ∈ plan.deployments,
    Beside (goal here (plan.source form)) (goal here x.result)
  outside : ∀ x ∈ plan.deployments, ¬ goal here plan.dropins <+: goal here x.result

theorem separate_resolve {base : Path} {config : Section}
    (hslash : ∀ x ∈ config.deployments, '/' ∉ x.name.toList)
    (hsources : ∀ form, Beside (goal here ((Plan.resolve base config).source form))
      (goal here (config.dropinsDir base)))
    (hresults : ∀ form, ∀ x ∈ config.deployments,
      Beside (goal here ((Plan.resolve base config).source form)) (goal here (base.join x.result)))
    (houtside : ∀ x ∈ config.deployments,
      ¬ goal here (config.dropinsDir base) <+: goal here (base.join x.result)) :
    (Plan.resolve base config).Separate here where
  targets _ hx := target_of_mem_resolve hx
  slashless _ hx := slashless_of_mem_resolve hslash hx
  sources := hsources
  results form := List.forall_mem_map.2 (hresults form)
  outside := List.forall_mem_map.2 houtside

/-- A deployment is settled on a disk: what it was made of on an earlier one is still there, and
stands at its place. -/
structure Settled (plan : Plan) (here : Location) (b : Disk) (x : Deployment) (e : Disk) :
    Prop where
  made : plan.Made here x.form b
  held : Holding (goal here (plan.source x.form)) b e
  carried : Carries (goal here (plan.source x.form)) (plan.place here x) b e

/-- Deployments are being copied: the hot-deploy directory is there, and all that is to be copied is
as it was. -/
structure Underway (plan : Plan) (here : Location) (b e : Disk) : Prop where
  opened : plan.Open here e
  held : ∀ x ∈ plan.deployments, Holding (goal here (plan.source x.form)) b e

theorem Settled.stands {plan : Plan} {b e : Disk} {x : Deployment}
    (h : plan.Settled here b x e) :
    match x.form with
    | .packed => ∃ content mode, e.get? (plan.place here x) = some (.file content mode)
    | .unpacked => e.get? (plan.place here x) = some .directory := by
  have htop := h.carried []
  have hmade := h.made
  rw [List.append_nil, List.append_nil] at htop
  cases hform : x.form with
  | packed =>
    rw [hform] at hmade htop
    obtain ⟨content, mode, hfile⟩ := hmade
    exact ⟨content, mode, htop _ hfile⟩
  | unpacked =>
    rw [hform] at hmade htop
    exact htop _ hmade

section Copying
variable {plan : Plan} {b c d : Disk} {x y : Deployment} {xs : List Deployment} {m m' m'' : Machine}
variable (hplan : plan.Separate here)

theorem copyOne_grows (plan : Plan) (x : Deployment) :
    Moves (OnDisk Grows) here (Cycle.copyOne plan x) := by
  refine .bind (Cycle.announce_moves _ _) fun _ => ?_
  split
  · exact Files.lift_moves (Files.copyFile_grows _ _)
  · exact .bind (Files.lift_moves (Files.copyTree_grows _ _)) fun _ => .pure _

theorem copyAll_grows (plan : Plan) (xs : List Deployment) :
    Moves (OnDisk Grows) here (Cycle.copyAll plan xs) := by
  induction xs with
  | nil => exact .pure ()
  | cons x rest ih => exact .bind (copyOne_grows plan x) fun _ => ih

theorem copyOne_of_ok {e : Disk}
    (h : match x.form with
      | .packed => Files.copyFile plan.archive x.target here m.disk = (.ok (), e)
      | .unpacked => ∃ n, Files.copyTree plan.exploded x.target here m.disk = (.ok n, e)) :
    ∃ m', Cycle.copyOne plan x here m = (.ok (), m') ∧ m'.disk = e := by
  obtain ⟨m₁, hannounce, hdisk, -⟩ : ∃ m₁, Cycle.announce .copy (x.name ++ " -> " ++ x.target.text)
      here m = (.ok (), m₁) ∧ m.OnlyLogged m₁ := Work.note_apply ..
  rw [← hdisk] at h
  rw [Cycle.copyOne, bind_apply_ok hannounce]
  cases hform : x.form with
  | packed =>
    rw [hform] at h
    exact ⟨_, Files.lift_eq_ok_iff.2 ⟨e, h, rfl⟩, rfl⟩
  | unpacked =>
    rw [hform] at h
    obtain ⟨n, hcopy⟩ := h
    exact ⟨_, bind_apply_ok (Files.lift_eq_ok_iff.2 ⟨e, hcopy, rfl⟩), rfl⟩

include hplan

theorem Separate.delivered (hx : x ∈ plan.deployments) (hopen : plan.Open here m.disk)
    (h : Cycle.copyOne plan x here m = (.ok (), m')) : Delivered plan here x m.disk m'.disk := by
  have halone : ({ plan with deployments := [x] } : Plan).Shippable here :=
    { targets := by simpa using hplan.targets x hx
      slashless := by simpa using hplan.slashless x hx
      distinct := List.pairwise_singleton _ x
      archive := (hplan.sources .packed).2
      exploded := (hplan.sources .unpacked).2 }
  obtain ⟨hreopened, hlaid, hmade, hbeside⟩ := copyOne_delivered halone (List.mem_singleton_self x)
    ⟨hopen.plain, hopen.atHome, hopen.paved⟩ h
  exact ⟨⟨hreopened.plain, hreopened.atHome, hreopened.paved⟩, hlaid, hmade, hbeside⟩

theorem Separate.goal_target (hx : x ∈ plan.deployments) :
    goal here x.target = plan.place here x := by
  rw [hplan.targets x hx, goal_div (x.isName_warName (hplan.slashless x hx)), place]

omit hplan in
theorem beside_place {form : Form}
    (h : Beside (goal here (plan.source form)) (goal here plan.dropins)) (x : Deployment) :
    Beside (goal here (plan.source form)) (plan.place here x) := h.right [x.warName]

theorem held_of_delivered (h : Delivered plan here x c d) (hg : c.Grows d) {form : Form}
    (hheld : Holding (goal here (plan.source form)) b c) :
    Holding (goal here (plan.source form)) b d where
  plain := h.reopened.plain
  grown := hheld.grown.trans hg
  kept := by
    funext rest
    have hoff := ((beside_place (hplan.sources form) x).left rest).2
    exact (h.laid.get?_elsewhere hoff).trans (congrFun hheld.kept rest)

theorem settled_of_delivered (h : Delivered plan here x c d) (hg : c.Grows d)
    (hheld : Holding (goal here (plan.source x.form)) b c) : plan.Settled here b x d where
  made := by
    have htop := congrFun hheld.kept []
    simp only [under, List.append_nil] at htop
    have hmade := h.made
    unfold Made at hmade ⊢
    cases hform : x.form with
    | packed =>
      simp only [hform, source] at hmade htop ⊢
      rwa [← htop]
    | unpacked =>
      simp only [hform, source] at hmade htop ⊢
      rwa [← htop]
  held := held_of_delivered hplan h hg hheld
  carried rest f hf := by
    have hsource : c.under (goal here (plan.source x.form)) rest = some f :=
      (congrFun hheld.kept rest).trans hf
    rw [h.laid, Tree.atop, Tree.shift_append, hsource]
    rfl

theorem form_eq_of_delivered (hname : x.name = y.name) (hy : plan.Settled here b y c)
    (h : Delivered plan here x c d) (hg : c.Grows d)
    (hheld : Holding (goal here (plan.source x.form)) b c) : x.form = y.form := by
  have hplace : plan.place here x = plan.place here y := by
    rw [place, place, Deployment.warName, Deployment.warName, hname]
  have hbefore := hy.stands
  have hafter := (settled_of_delivered hplan h hg hheld).stands
  rw [hplace] at hafter
  -- a file does not become a directory, and no directory a file
  cases hx : x.form with
  | packed =>
    cases hy : y.form with
    | packed => rfl
    | unpacked =>
      rw [hx] at hafter
      rw [hy] at hbefore
      obtain ⟨content, mode, hfile⟩ := hafter
      rw [hg.directory hbefore] at hfile
      cases hfile
  | unpacked =>
    cases hy : y.form with
    | unpacked => rfl
    | packed =>
      rw [hx] at hafter
      rw [hy] at hbefore
      obtain ⟨content, mode, hfile⟩ := hbefore
      obtain ⟨content', mode', hfile'⟩ := hg.file hfile
      rw [show d.get? (plan.place here y) = some .directory from hafter] at hfile'
      cases hfile'

theorem Settled.of_delivered (hy : plan.Settled here b y c) (h : Delivered plan here x c d)
    (hg : c.Grows d) (hheld : Holding (goal here (plan.source x.form)) b c) :
    plan.Settled here b y d := by
  by_cases hname : x.name = y.name
  · have hform := form_eq_of_delivered hplan hname hy h hg hheld
    have hx := settled_of_delivered hplan h hg hheld
    have hplace : plan.place here x = plan.place here y := by
      rw [place, place, Deployment.warName, Deployment.warName, hname]
    obtain ⟨hmade, hheld', hcarried⟩ := hx
    rw [hform] at hmade hheld' hcarried
    exact ⟨hmade, hheld', hplace ▸ hcarried⟩
  · refine ⟨hy.made, held_of_delivered hplan h hg hy.held, fun rest f hf => ?_⟩
    rw [h.laid.get?_elsewhere (not_place_prefix_of_ne hname rest)]
    exact hy.carried rest f hf

theorem Underway.of_copyOne (hway : plan.Underway here b m.disk) (hx : x ∈ plan.deployments)
    (h : Cycle.copyOne plan x here m = (.ok (), m')) : plan.Underway here b m'.disk := by
  have hdelivered := hplan.delivered hx hway.opened h
  have hg : m.disk.Grows m'.disk := (copyOne_grows plan x).of_eq h
  exact ⟨hdelivered.reopened, fun y hy => held_of_delivered hplan hdelivered hg (hway.held y hy)⟩

/-- Once all deployments of a list are copied, they are settled, and so is each that was before. -/
theorem settled_of_copyAll (hxs : ∀ x ∈ xs, x ∈ plan.deployments)
    (hway : plan.Underway here b m.disk) (h : Cycle.copyAll plan xs here m = (.ok (), m')) :
    ∀ y, plan.Settled here b y m.disk ∨ y ∈ xs → plan.Settled here b y m'.disk := by
  induction xs generalizing m with
  | nil =>
    obtain ⟨-, rfl⟩ := ok_inj h
    simp
  | cons x rest ih =>
    obtain ⟨hx, hrest⟩ := List.forall_mem_cons.1 hxs
    obtain ⟨⟨⟩, m₁, hone, h⟩ := bind_eq_ok_iff.1 h
    have hdelivered := hplan.delivered hx hway.opened hone
    have hg : m.disk.Grows m₁.disk := (copyOne_grows plan x).of_eq hone
    intro y hy
    refine ih hrest (hway.of_copyOne hplan hx hone) h y ?_
    rcases hy with hsettled | hmem
    · exact .inl (hsettled.of_delivered hplan hdelivered hg (hway.held x hx))
    · rcases List.mem_cons.1 hmem with rfl | hmem
      · exact .inl (settled_of_delivered hplan hdelivered hg (hway.held y hx))
      · exact .inr hmem

variable (hb : plan.Open here b)
variable (hrewritable : ∀ x ∈ plan.deployments, b.Rewritable (goal here (plan.source x.form)))
include hb hrewritable

theorem copyOne_again (hx : x ∈ plan.deployments)
    (hheld : Holding (goal here (plan.source x.form)) b m.disk)
    (h : Cycle.copyOne plan x here m = (.ok (), m')) (hg : m'.disk.Grows m''.disk)
    (hsettled : plan.Settled here b x m''.disk) :
    ∃ m₃, Cycle.copyOne plan x here m'' = (.ok (), m₃) ∧ m₃.disk = m''.disk := by
  have hhere := hheld.grown.directory hb.atHome
  have hbeside := beside_place (hplan.sources x.form) x
  have htarget := hplan.goal_target hx
  have hcopy := copyOne_eq_ok h
  obtain ⟨hmade, hheld', hcarried⟩ := hsettled
  have hwritable := hrewritable x hx
  refine copyOne_of_ok ?_
  cases hform : x.form with
  | packed =>
    rw [hform] at hcopy hmade hheld hheld' hcarried hbeside hwritable
    obtain ⟨content, mode, hfile⟩ := hmade
    have hbefore := congrFun hheld.kept []
    have hkept := congrFun hheld'.kept []
    have hplace := hcarried []
    have hmode := hwritable [] content mode
    simp only [under, source, List.append_nil] at hbefore hkept hplace hmode
    refine Files.copyFile_again hheld.plain hhere (fun heq => hbeside.1 ?_) hcopy hheld'.plain hg
      (hbefore.trans hfile) (hmode hfile) (hkept.trans hbefore.symm) ?_
    · rw [source, heq, htarget]
    · rw [htarget, hplace _ hfile, hkept, hfile]
  | unpacked =>
    rw [hform] at hcopy hheld hheld' hcarried hbeside hwritable
    obtain ⟨n, hcopy⟩ := hcopy
    rw [← htarget] at hbeside hcarried
    refine ⟨n, Files.copyTree_again hbeside (fun rest hrest => ?_) hb.atHome hheld' hcarried
      hwritable hheld hcopy hg⟩
    -- the way to the target leads through the hot-deploy directory, which is there
    rw [hplan.targets x hx, stops_div (x.isName_warName (hplan.slashless x hx)),
      List.mem_append, List.mem_singleton] at hrest
    rcases hrest with hstop | heq
    · exact hb.paved _ hstop
    · rw [← place, ← htarget] at heq
      exact absurd (heq ▸ List.prefix_append _ _) hbeside.1

theorem copyAll_again (hxs : ∀ x ∈ xs, x ∈ plan.deployments)
    (hway : plan.Underway here b m.disk) (h : Cycle.copyAll plan xs here m = (.ok (), m'))
    (hg : m'.disk.Grows m''.disk) (hsettled : ∀ x ∈ xs, plan.Settled here b x m''.disk) :
    ∃ m₃, Cycle.copyAll plan xs here m'' = (.ok (), m₃) ∧ m₃.disk = m''.disk := by
  induction xs generalizing m m'' with
  | nil => exact ⟨m'', rfl, rfl⟩
  | cons x rest ih =>
    obtain ⟨hx, hrest⟩ := List.forall_mem_cons.1 hxs
    obtain ⟨hsettled, hothers⟩ := List.forall_mem_cons.1 hsettled
    obtain ⟨⟨⟩, m₁, hone, h⟩ := bind_eq_ok_iff.1 h
    have hrestGrows : m₁.disk.Grows m'.disk := (copyAll_grows plan rest).of_eq h
    have hg₁ := hrestGrows.trans hg
    obtain ⟨m₂, hone', hdisk⟩ :=
      copyOne_again hplan hb hrewritable hx (hway.held x hx) hone hg₁ hsettled
    rw [← hdisk] at hg hothers ⊢
    obtain ⟨m₃, hmore, hdisk'⟩ := ih hrest (hway.of_copyOne hplan hx hone) h hg hothers
    exact ⟨m₃, (bind_apply_ok hone').trans hmore, hdisk'⟩

omit hb hrewritable in
/-- After all was copied to the server every deployment is settled, since the hot-deploy directory
was made; and wherever they are settled later, copying again changes nothing. -/
theorem copyToServer_again (hm : m.disk.Plain) (hhere : m.disk.get? here = some .directory)
    (hwritable : ∀ x ∈ plan.deployments, m.disk.Rewritable (goal here (plan.source x.form)))
    (h : Cycle.copyToServer plan here m = (.ok (), m')) :
    ∃ b, m.disk.Grows b ∧ (∀ x ∈ plan.deployments, plan.Settled here b x m'.disk) ∧
      ∀ m'', m'.disk.Grows m''.disk → (∀ x ∈ plan.deployments, plan.Settled here b x m''.disk) →
        ∃ m₃, Cycle.copyToServer plan here m'' = (.ok (), m₃) ∧ m₃.disk = m''.disk := by
  obtain ⟨⟨⟩, m₁, hensure, h⟩ := bind_eq_ok_iff.1 h
  obtain ⟨b, hmade, rfl⟩ := Files.lift_eq_ok_iff.1 hensure
  have hb := (open_of_ensureDir hm hhere hmade).1
  have hway : plan.Underway here b b := ⟨hb, fun x _ => ⟨hb.plain, .refl b, rfl⟩⟩
  have hspared := ((Files.ensureDir_makes plan.dropins).of_eq hmade hm).2
  have hrewritable : ∀ x ∈ plan.deployments, b.Rewritable (goal here (plan.source x.form)) :=
    fun x hx rest content mode hfile =>
      hwritable x hx rest content mode ((hspared _ id).file_iff.1 hfile)
  refine ⟨b, (Files.ensureDir_grows _).of_eq hmade,
    fun x hx => settled_of_copyAll hplan (fun _ hx => hx) hway h x (.inr hx),
    fun m'' hg hsettled => ?_⟩
  have hgrown : b.Grows m'.disk := (copyAll_grows plan _).of_eq h
  have hg' := hgrown.trans hg
  have hensure' : (liftM (Files.ensureDir plan.dropins) : Work Unit) here m'' = (.ok (), m'') :=
    Files.lift_eq_ok_iff.2 ⟨_, Files.ensureDir_again hhere hmade hg', rfl⟩
  obtain ⟨m₃, hall, hdisk⟩ := copyAll_again hplan hb hrewritable (fun _ hx => hx) hway h hg hsettled
  exact ⟨m₃, (bind_apply_ok hensure').trans hall, hdisk⟩

end Copying

end Plan

end Deploy

end GemStaging
