import GemStaging.Deploy.Cycle
import GemStaging.Proofs.Files.Endless
import GemStaging.Proofs.Staging.Steps

/-!
What is copied to the server. Each deployment is laid at its own place in the hot-deploy directory:
the archive as a file, the exploded directory by merging it into what stood there. No deployment
touches the place of another one, the archive or the exploded directory, so that in the end every
place holds what was packaged.
-/

namespace GemStaging.Deploy

open Effect Disk GemStaging.Path

variable {here : Location} {plan : Plan} {m m' : Machine}

def Deployment.warName (x : Deployment) : String := x.name ++ ".war"

theorem Deployment.isName_warName {x : Deployment} (h : '/' ∉ x.name.toList) :
    IsName x.warName := by
  have hw : 'w' ∈ x.warName.toList := by simp [warName]
  refine ⟨by simpa [warName] using h, ?_, ?_, ?_⟩
  all_goals
    intro heq
    rw [heq] at hw
    simp at hw

theorem Deployment.warName_inj {x y : Deployment} (h : x.warName = y.warName) :
    x.name = y.name := by
  have htoList := congrArg String.toList h
  rw [warName, warName, String.toList_append, String.toList_append] at htoList
  exact String.toList_inj.1 (List.append_cancel_right htoList)

namespace Plan

/-- Each deployment has a place of its own in the hot-deploy directory, and what is copied lies
outside it. -/
structure Shippable (plan : Plan) (here : Location) : Prop where
  targets : ∀ x ∈ plan.deployments, x.target = plan.dropins / x.warName
  slashless : ∀ x ∈ plan.deployments, '/' ∉ x.name.toList
  distinct : plan.deployments.Pairwise fun x y => x.name ≠ y.name
  archive : ¬ goal here plan.dropins <+: goal here plan.archive
  exploded : ¬ goal here plan.dropins <+: goal here plan.exploded

section Resolve
variable {base : Path} {config : Section}

theorem target_of_mem_resolve {x : Deployment} (hx : x ∈ (Plan.resolve base config).deployments) :
    x.target = config.dropinsDir base / x.warName := by
  obtain ⟨y, -, rfl⟩ := List.mem_map.1 hx
  rfl

theorem slashless_of_mem_resolve (hslash : ∀ x ∈ config.deployments, '/' ∉ x.name.toList)
    {x : Deployment} (hx : x ∈ (Plan.resolve base config).deployments) : '/' ∉ x.name.toList := by
  obtain ⟨y, hy, rfl⟩ := List.mem_map.1 hx
  exact hslash y hy

theorem shippable_resolve (hslash : ∀ x ∈ config.deployments, '/' ∉ x.name.toList)
    (hdistinct : config.deployments.Pairwise fun x y => x.name ≠ y.name)
    (harchive : ¬ goal here (config.dropinsDir base) <+: goal here (base.join config.archive))
    (hexploded : ¬ goal here (config.dropinsDir base) <+: goal here (base.join config.exploded)) :
    (Plan.resolve base config).Shippable here where
  targets _ hx := target_of_mem_resolve hx
  slashless _ hx := slashless_of_mem_resolve hslash hx
  distinct := List.pairwise_map.2 hdistinct
  archive := harchive
  exploded := hexploded

end Resolve

def place (plan : Plan) (here : Location) (x : Deployment) : Location :=
  goal here plan.dropins ++ [x.warName]

def source (plan : Plan) : Form → Path
  | .packed => plan.archive
  | .unpacked => plan.exploded

/-- What was packaged stands at the place of a deployment and is still there itself: the archive, or
the exploded directory laid over what the place held before. -/
def Shipped (plan : Plan) (here : Location) (c d : Disk) (x : Deployment) : Prop :=
  match x.form with
  | .packed => ∃ content mode, c.get? (goal here plan.archive) = some (.file content mode) ∧
      d.get? (goal here plan.archive) = some (.file content mode) ∧
      d.get? (goal here x.target) = some (.file content mode)
  | .unpacked => c.get? (goal here plan.exploded) = some .directory ∧
      d.under (goal here plan.exploded) = c.under (goal here plan.exploded) ∧
      d.under (goal here x.target) =
        (c.under (goal here plan.exploded)).atop (c.under (goal here x.target))

/-- The hot-deploy directory is there, on a disk without links. -/
structure Open (plan : Plan) (here : Location) (c : Disk) : Prop where
  plain : c.Plain
  atHome : c.get? here = some .directory
  paved : ∀ x ∈ stops here plan.dropins, c.get? x = some .directory

theorem Open.of_grows {c d : Disk} (h : plan.Open here c) (hd : d.Plain) (hg : c.Grows d) :
    plan.Open here d :=
  ⟨hd, hg.directory h.atHome, fun x hx => hg.directory (h.paved x hx)⟩

def Made (plan : Plan) (here : Location) (form : Form) (d : Disk) : Prop :=
  match form with
  | .packed => ∃ content mode, d.get? (goal here plan.archive) = some (.file content mode)
  | .unpacked => d.get? (goal here plan.exploded) = some .directory

/-- What a deployment is made of is laid at its place, and the rest is as it was. -/
def Laid (plan : Plan) (here : Location) (x : Deployment) (c d : Disk) : Prop :=
  Patched (((c.under (goal here (plan.source x.form))).shift (plan.place here x)).atop
    (.directories [plan.place here x])) c d

structure Delivered (plan : Plan) (here : Location) (x : Deployment) (c d : Disk) : Prop where
  reopened : plan.Open here d
  laid : Laid plan here x c d
  made : plan.Made here x.form c
  beside : Beside (goal here (plan.source x.form)) (goal here plan.dropins)

section Copying
variable {x : Deployment}

theorem not_place_prefix {loc : Location} (h : ¬ goal here plan.dropins <+: loc) :
    ¬ plan.place here x <+: loc := fun hbelow => h ((List.prefix_append _ _).trans hbelow)

theorem copyOne_eq_ok (h : Cycle.copyOne plan x here m = (.ok (), m')) :
    match x.form with
    | .packed => Files.copyFile plan.archive x.target here m.disk = (.ok (), m'.disk)
    | .unpacked => ∃ n, Files.copyTree plan.exploded x.target here m.disk = (.ok n, m'.disk) := by
  obtain ⟨⟨⟩, m₁, hannounce, h⟩ := bind_eq_ok_iff.1 h
  obtain ⟨hdisk, -⟩ := Work.note_eq_ok hannounce
  cases hform : x.form with
  | packed =>
    rw [hform] at h
    obtain ⟨d, hd, rfl⟩ := Files.lift_eq_ok_iff.1 h
    rwa [hdisk] at hd
  | unpacked =>
    rw [hform] at h
    obtain ⟨n, m₂, hcopy, h⟩ := bind_eq_ok_iff.1 h
    obtain ⟨d, hd, rfl⟩ := Files.lift_eq_ok_iff.1 hcopy
    obtain ⟨-, rfl⟩ := ok_inj h
    exact ⟨n, hdisk ▸ hd⟩

variable (hplan : plan.Shippable here) (hx : x ∈ plan.deployments)
include hplan hx

theorem goal_target : goal here x.target = plan.place here x := by
  rw [hplan.targets x hx, goal_div (x.isName_warName (hplan.slashless x hx)), place]

theorem paves_target {c : Disk} (h : plan.Open here c) :
    Paves c (stops here x.target) (goal here x.target) [goal here x.target] := by
  have hname := x.isName_warName (hplan.slashless x hx)
  refine .of_directories (goal_mem_stops here x.target) ?_
  rw [hplan.targets x hx, goal_div hname, stops_div hname]
  intro y hy
  rcases List.mem_append.1 hy with hy | hy
  · exact .inl (h.paved y hy)
  · exact .inr (List.mem_singleton.1 hy)

theorem copyFile_delivered {c d : Disk} (hopen : plan.Open here c) (hform : x.form = .packed)
    (h : Files.copyFile plan.archive x.target here c = (.ok (), d)) :
    Delivered plan here x c d := by
  have hapart : goal here plan.archive ∉ [goal here x.target] := by
    intro hmem
    rw [goal_target hplan hx] at hmem
    have hbelow : plan.place here x <+: goal here plan.archive :=
      List.mem_singleton.1 hmem ▸ List.prefix_refl _
    exact not_place_prefix hplan.archive hbelow
  obtain ⟨hd, ⟨⟨content, mode, hfile, -⟩, -⟩, hlaid⟩ :=
    Files.copyFile_patched hopen.plain hopen.atHome (paves_target hplan hx hopen) hapart h
  rw [goal_target hplan hx] at hlaid
  obtain ⟨name, form, target, url, result⟩ := x
  obtain rfl : form = .packed := hform
  refine ⟨hopen.of_grows hd ((Files.copyFile_grows _ _).of_eq h), hlaid,
    ⟨content, mode, hfile⟩, ?_, hplan.archive⟩
  -- no file is above a directory
  intro habove
  have hdir := directory_upward habove (hopen.paved _ (goal_mem_stops here plan.dropins))
  rw [source, hfile] at hdir
  cases hdir

/-- The exploded directory does not lie above the hot-deploy directory where it could be copied. -/
theorem beside_of_copyTree {c d : Disk} {n : Nat} (hopen : plan.Open here c)
    (h : Files.copyTree plan.exploded x.target here c = (.ok n, d)) :
    Beside (goal here plan.exploded) (goal here plan.dropins) := by
  refine ⟨?_, hplan.exploded⟩
  rintro ⟨way, hway⟩
  have hgoal : goal here x.target = goal here plan.exploded ++ (way ++ [x.warName]) := by
    rw [goal_target hplan hx, place, ← hway, List.append_assoc]
  have hlength : 2 ≤ (way ++ [x.warName]).length := by
    cases way with
    | nil =>
      rw [List.append_nil] at hway
      exact absurd (hway ▸ List.prefix_refl _) hplan.exploded
    | cons => simp
  refine Files.copyTree_ne_ok hlength hgoal hopen.plain hopen.atHome ?_ n h
  rw [goal_target hplan hx, place, List.dropLast_concat]
  exact hopen.paved _ (goal_mem_stops here plan.dropins)

theorem copyTree_delivered {c d : Disk} {n : Nat} (hopen : plan.Open here c)
    (hform : x.form = .unpacked)
    (h : Files.copyTree plan.exploded x.target here c = (.ok n, d)) :
    Delivered plan here x c d := by
  have hbeside := beside_of_copyTree hplan hx hopen h
  have hbeside' : Beside (goal here plan.exploded) (goal here x.target) := by
    have hright := hbeside.right [x.warName]
    rwa [← place, ← goal_target hplan hx] at hright
  obtain ⟨hd, hlaid⟩ := Files.copyTree_patched hbeside' hopen.plain hopen.atHome
    (paves_target hplan hx hopen) (by simpa using hbeside'.1) h
  rw [goal_target hplan hx] at hlaid
  obtain ⟨loc, hl, hdir⟩ := isDirAt_iff.1 (Files.copyTree_eq_ok h).1
  obtain rfl : loc = goal here plan.exploded := hopen.plain.loc_of_resolve hl
  obtain ⟨name, form, target, url, result⟩ := x
  obtain rfl : form = .unpacked := hform
  exact ⟨hopen.of_grows hd ((Files.copyTree_grows _ _).of_eq h), hlaid, hdir, hbeside⟩

theorem copyOne_delivered (hopen : plan.Open here m.disk)
    (h : Cycle.copyOne plan x here m = (.ok (), m')) :
    Delivered plan here x m.disk m'.disk := by
  have hcopy := copyOne_eq_ok h
  cases hform : x.form with
  | packed =>
    rw [hform] at hcopy
    exact copyFile_delivered hplan hx hopen hform hcopy
  | unpacked =>
    rw [hform] at hcopy
    obtain ⟨n, hcopy⟩ := hcopy
    exact copyTree_delivered hplan hx hopen hform hcopy

end Copying

section Laid
variable {x y : Deployment} {b c d : Disk}

theorem Laid.get?_elsewhere (h : Laid plan here x c d) {loc : Location}
    (hloc : ¬ plan.place here x <+: loc) : d.get? loc = c.get? loc := by
  have hne : loc ∉ [plan.place here x] := by
    intro hmem
    rw [List.mem_singleton.1 hmem] at hloc
    exact hloc (List.prefix_refl _)
  rw [h loc, Tree.atop, Tree.shift_of_not_below hloc, Tree.directories, if_neg hne]
  rfl

theorem Laid.under_place (h : Laid plan here x c d)
    (hsource : (c.get? (goal here (plan.source x.form))).isSome) :
    d.under (plan.place here x) =
      (c.under (goal here (plan.source x.form))).atop (c.under (plan.place here x)) := by
  funext rest
  rw [under, h, Tree.atop, Tree.shift_append, Tree.directories]
  cases rest with
  | nil =>
    have htop : (c.under (goal here (plan.source x.form)) []).isSome := by
      simpa [under] using hsource
    simp [Tree.atop, Option.or_of_isSome htop]
  | cons name rest => simp [Tree.atop, under]

theorem not_place_prefix_of_ne (hxy : x.name ≠ y.name) (rest : Location) :
    ¬ plan.place here x <+: plan.place here y ++ rest := by
  rw [place, place, List.append_assoc, List.singleton_append]
  exact not_prefix_of_ne fun heq => hxy (Deployment.warName_inj heq)

/-- What was laid at a place is there as long as neither the place nor what it is made of is
touched. -/
theorem shipped_of_laid (htarget : goal here x.target = plan.place here x)
    (h : Laid plan here x b c)
    (hmade : plan.Made here x.form b)
    (hplace : d.under (plan.place here x) = c.under (plan.place here x))
    (hkept : d.under (goal here (plan.source x.form)) = b.under (goal here (plan.source x.form))) :
    plan.Shipped here b d x := by
  unfold Shipped
  cases hform : x.form with
  | packed =>
    rw [hform] at hmade hkept
    obtain ⟨content, mode, hfile⟩ := hmade
    have hunder := h.under_place (by rw [hform, source, hfile]; rfl)
    have htop := congrFun (hplace.trans hunder) []
    have harchive := congrFun hkept []
    rw [hform] at htop
    simp only [under, Tree.atop, source, List.append_nil] at htop harchive
    rw [hfile] at harchive htop
    exact ⟨content, mode, hfile, harchive, htarget ▸ htop⟩
  | unpacked =>
    rw [hform] at hmade hkept
    have hexploded : b.get? (goal here plan.exploded) = some .directory := hmade
    have hunder := h.under_place (by rw [hform, source, hexploded]; rfl)
    refine ⟨hexploded, hkept, ?_⟩
    rw [htarget, hplace, hunder, hform, source]

theorem Shipped.of_under_eq (h : plan.Shipped here c d x)
    (hsource : c.under (goal here (plan.source x.form)) =
      b.under (goal here (plan.source x.form)))
    (hplace : c.under (goal here x.target) = b.under (goal here x.target)) :
    plan.Shipped here b d x := by
  have htop := congrFun hsource []
  simp only [under, List.append_nil] at htop
  unfold Shipped at h ⊢
  cases hform : x.form with
  | packed =>
    simp only [hform, source] at h htop ⊢
    rwa [← htop]
  | unpacked =>
    simp only [hform, source] at h htop hsource ⊢
    rwa [← hplace, ← hsource, ← htop]

end Laid

/-- Copying deployments one after another lays each of them at its place: none of them is touched
by the others. -/
theorem shipped_of_copyAll (hplan : plan.Shippable here) {xs : List Deployment}
    (hxs : ∀ x ∈ xs, x ∈ plan.deployments) (hdistinct : xs.Pairwise fun x y => x.name ≠ y.name)
    (hopen : plan.Open here m.disk) (h : Cycle.copyAll plan xs here m = (.ok (), m')) :
    (∀ loc, (∀ x ∈ xs, ¬ plan.place here x <+: loc) → m'.disk.get? loc = m.disk.get? loc) ∧
      ∀ x ∈ xs, Beside (goal here (plan.source x.form)) (goal here plan.dropins) ∧
        plan.Shipped here m.disk m'.disk x := by
  induction xs generalizing m with
  | nil =>
    obtain ⟨-, rfl⟩ := ok_inj h
    simp
  | cons x rest ih =>
    obtain ⟨hx, hrest⟩ := List.forall_mem_cons.1 hxs
    obtain ⟨hne, hdistinct⟩ := List.pairwise_cons.1 hdistinct
    obtain ⟨⟨⟩, m₁, hone, h⟩ := bind_eq_ok_iff.1 h
    have hfirst := copyOne_delivered hplan hx hopen hone
    -- the frame of the others keeps the first one, and the frame of the first one keeps what the
    -- others were made of and laid over
    obtain ⟨hframe, hshipped⟩ := ih hrest hdistinct hfirst.reopened h
    have hall : ∀ loc, (∀ y ∈ x :: rest, ¬ plan.place here y <+: loc) →
        m'.disk.get? loc = m.disk.get? loc := by
      intro loc hloc
      obtain ⟨hplace, hothers⟩ := List.forall_mem_cons.1 hloc
      rw [hframe loc hothers, hfirst.laid.get?_elsewhere hplace]
    refine ⟨hall, List.forall_mem_cons.2 ⟨⟨hfirst.beside, ?_⟩, ?_⟩⟩
    · have hplace : m'.disk.under (plan.place here x) = m₁.disk.under (plan.place here x) :=
        funext fun more => hframe _ fun y hy => not_place_prefix_of_ne (hne y hy).symm more
      refine shipped_of_laid (goal_target hplan hx) hfirst.laid hfirst.made hplace ?_
      funext more
      exact hall _ fun y _ => (hfirst.beside.symm.append [y.warName] more).1
    · intro y hy
      obtain ⟨hbeside, hy'⟩ := hshipped y hy
      refine ⟨hbeside, hy'.of_under_eq (funext fun more => ?_) (funext fun more => ?_)⟩
      · exact hfirst.laid.get?_elsewhere (hbeside.symm.append [x.warName] more).1
      · rw [goal_target hplan (hrest y hy)]
        exact hfirst.laid.get?_elsewhere (not_place_prefix_of_ne (hne y hy) more)

theorem open_of_ensureDir {made : Disk} (hc : m.disk.Plain)
    (hhere : m.disk.get? here = some .directory)
    (h : Files.ensureDir plan.dropins here m.disk = (.ok (), made)) :
    plan.Open here made ∧ Patched (.directories (stops here plan.dropins)) m.disk made := by
  obtain ⟨hplain, hmade⟩ := Files.ensureDir_patched hc hhere h
  refine ⟨⟨hplain, (Files.ensureDir_grows _).of_eq h |>.directory hhere, fun x hx => ?_⟩, hmade⟩
  rw [hmade, Tree.directories, if_pos hx]
  rfl

theorem shipped_of_copyToServer (hplan : plan.Shippable here) (hc : m.disk.Plain)
    (hhere : m.disk.get? here = some .directory)
    (h : Cycle.copyToServer plan here m = (.ok (), m')) :
    ∃ made, Files.ensureDir plan.dropins here m.disk = (.ok (), made) ∧
      ∀ x ∈ plan.deployments, plan.Shipped here made m'.disk x ∧
        ((∀ y ∈ stops here plan.dropins, ¬ goal here x.target <+: y) →
          made.under (goal here x.target) = m.disk.under (goal here x.target)) ∧
        (x.form = .unpacked → made.get? (goal here x.target) = none →
          m'.disk.under (goal here x.target) = m'.disk.under (goal here plan.exploded)) := by
  obtain ⟨⟨⟩, m₁, hensure, h⟩ := bind_eq_ok_iff.1 h
  obtain ⟨made, hmade, rfl⟩ := Files.lift_eq_ok_iff.1 hensure
  obtain ⟨hopen, hpatched⟩ := open_of_ensureDir hc hhere hmade
  obtain ⟨-, hshipped⟩ := shipped_of_copyAll hplan (fun _ hx => hx) hplan.distinct hopen h
  refine ⟨made, hmade, fun x hx => ⟨(hshipped x hx).2, fun hpassed => ?_, fun hform hnone => ?_⟩⟩
  · funext rest
    have hfree : goal here x.target ++ rest ∉ stops here plan.dropins := fun hmem =>
      hpassed _ hmem (List.prefix_append _ _)
    rw [under, hpatched, Tree.directories, if_neg hfree]
    rfl
  · have hlaid := (hshipped x hx).2
    rw [Shipped, hform] at hlaid
    obtain ⟨-, hkept, hlaid⟩ := hlaid
    rw [hlaid, hkept]
    funext rest
    have hempty : made.under (goal here x.target) rest = none := by
      cases rest with
      | nil => rwa [under, List.append_nil]
      | cons => exact get?_append_of_ne (by simp [hnone]) (List.cons_ne_nil _ _)
    show Option.or _ (made.under _ rest) = _
    rw [hempty, Option.or_none]

end Plan

section Samples

def packaged : List (Location × String × Entry) :=
  [([], "a.war", .file [1] .data), ([], "e", .directory), (["e"], "new", .file [2] .data),
    ([], "d", .directory)]

/-- A page from before that is no longer in the exploded directory. -/
def stale : List (Location × String × Entry) :=
  [(["d"], "u.war", .directory), (["d", "u.war"], "old", .file [3] .data)]

/-- A machine on which all that was packaged is there, with some more entries. -/
def packagedWith (entries : List (Location × String × Entry)) : Machine where
  disk := diskOf (packaged ++ entries)

theorem plain_packagedWith {entries : List (Location × String × Entry)}
    (h : ∀ e ∈ entries, IsName e.2.1 ∧ (e.2.2 matches .link _) = false) :
    (packagedWith entries).disk.Plain := by
  have hpackaged : ∀ e ∈ packaged, IsName e.2.1 ∧ (e.2.2 matches .link _) = false := by decide
  exact plain_diskOf fun e he => (List.mem_append.1 he).elim (hpackaged e) (h e)

def bothForms (dropins : Path) : Section where
  archive := ⟨"a.war"⟩
  exploded := ⟨"e"⟩
  server := ⟨⟨"s"⟩, "s"⟩
  dropins := dropins
  deployments := [⟨"p", .packed, ⟨"r1"⟩⟩, ⟨"u", .unpacked, ⟨"r2"⟩⟩]

def planInto (dropins : Path) : Plan := .resolve ⟨"/"⟩ (bothForms dropins)

theorem shippable_planInto {dropins : Path}
    (harchive : ¬ goal [] (planInto dropins).dropins <+: goal [] (planInto dropins).archive)
    (hexploded : ¬ goal [] (planInto dropins).dropins <+: goal [] (planInto dropins).exploded) :
    (planInto dropins).Shippable [] :=
  Plan.shippable_resolve (by simp [bothForms]) (by simp [bothForms]) harchive hexploded

theorem copyToServer_of_fst (plan : Plan) (m : Machine)
    (h : (Cycle.copyToServer plan [] m).1 = .ok ()) :
    Cycle.copyToServer plan [] m = (.ok (), (Cycle.copyToServer plan [] m).2) := Prod.ext h rfl

theorem Plan.shipped_of_copyToServer_sample : ∃ made m',
    Cycle.copyToServer (planInto ⟨"d"⟩) [] (packagedWith stale) = (.ok (), m') ∧
      ∀ x ∈ (planInto ⟨"d"⟩).deployments, (planInto ⟨"d"⟩).Shipped [] made m'.disk x := by
  have hcopied := copyToServer_of_fst (planInto ⟨"d"⟩) (packagedWith stale) (by decide +kernel)
  obtain ⟨made, -, hshipped⟩ := Plan.shipped_of_copyToServer
    (shippable_planInto (by decide +kernel) (by decide +kernel))
    (plain_packagedWith (by decide)) (get?_root _) hcopied
  exact ⟨made, _, hcopied, fun x hx => (hshipped x hx).1⟩

/-- Copying succeeds, and at the place of an unpacked deployment there is another tree than that of
the exploded directory. -/
def Unlike (plan : Plan) (m : Machine) : Prop :=
  plan.Shippable [] ∧ m.disk.Plain ∧ ∃ m', Cycle.copyToServer plan [] m = (.ok (), m') ∧
    ∃ x ∈ plan.deployments, x.form = .unpacked ∧
      m'.disk.under (goal [] x.target) ≠ m'.disk.under (goal [] plan.exploded)

theorem unlike_of_get? {dropins : Path} {m : Machine} (rest : Location)
    (hplan : (planInto dropins).Shippable []) (hm : m.disk.Plain)
    (hok : (Cycle.copyToServer (planInto dropins) [] m).1 = .ok ())
    (h : (Cycle.copyToServer (planInto dropins) [] m).2.disk.get?
        (goal [] ((planInto dropins).dropins / "u.war") ++ rest) ≠
      (Cycle.copyToServer (planInto dropins) [] m).2.disk.get?
        (goal [] (planInto dropins).exploded ++ rest)) : Unlike (planInto dropins) m := by
  refine ⟨hplan, hm, _, copyToServer_of_fst _ _ hok, _,
    List.mem_cons_of_mem _ List.mem_cons_self, rfl, ?_⟩
  exact fun heq => h (congrFun heq rest)

/-- A page left from before, and a path of the hot-deploy directory that leads through the place of
a deployment. -/
theorem merged_samples : Unlike (planInto ⟨"d"⟩) (packagedWith stale) ∧
    Unlike (planInto ⟨"d/u.war/x/../.."⟩) (packagedWith []) := by
  constructor
  · exact unlike_of_get? ["old"] (shippable_planInto (by decide +kernel) (by decide +kernel))
      (plain_packagedWith (by decide)) (by decide +kernel) (by decide +kernel)
  · exact unlike_of_get? ["x"] (shippable_planInto (by decide +kernel) (by decide +kernel))
      (plain_packagedWith (by decide)) (by decide +kernel) (by decide +kernel)

end Samples

end GemStaging.Deploy
