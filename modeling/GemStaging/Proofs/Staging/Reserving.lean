import GemStaging.Proofs.Files.Revealing
import GemStaging.Proofs.Staging.Idempotence
import GemStaging.Proofs.Staging.Phases

/-!
Reserving places. Each placeholder that is not there gets an empty file where nothing stood, so that
the placeholders which come after it, under whatever spelling, find it there (`Stager.Fills`).
Nothing that a run does later takes one away, if the installer takes nothing away: every fetch and
every installation sees all of them (`Stager.Stands`).

A placeholder is looked for before the directories on its way are made. Where it leads to a file
only once they are made, that file is emptied and listed with those that were made
(`Stager.Unearths`). That takes a name of the path that stands for nothing, and a step up from it.
-/

namespace GemStaging.Staging.Stager

open Effect Disk GemStaging.Path

variable {here : Location} {p : Path} {ps rest created : List Path} {b c d e : Disk}
variable {m m' : Machine} {s : Stager} {r : Reservation}

/-- Between two disks a placeholder was looked for in vain, and it led to a file once the
directories on its way were made. -/
def Unearths (here : Location) (p : Path) (c d : Disk) : Prop :=
  ∃ sought made, c.Grows sought ∧ ¬ sought.existsAt here p ∧
    Files.ensureParent p here sought = (.ok (), made) ∧ made.isFileAt here p ∧ made.Grows d

theorem Unearths.mono (h : Unearths here p c d) (hb : b.Grows c) (he : d.Grows e) :
    Unearths here p b e := by
  obtain ⟨sought, made, hsought, habsent, hmade, hfile, hd⟩ := h
  exact ⟨sought, made, hb.trans hsought, habsent, hmade, hfile, hd.trans he⟩

theorem not_unearths_of_isDirAt {parent : Path} (hparent : p.parent? = some parent)
    (hdir : c.isDirAt here parent) : ¬ Unearths here p c d := by
  rintro ⟨sought, made, hsought, habsent, hmade, hfile, -⟩
  have hstill : Files.ensureParent p here sought = (.ok (), sought) := by
    simp only [Files.ensureParent, hparent]
    exact mapError_eq_ok_iff.2 (Access.makeDirs_of_isDirAt (hsought.isDirAt hdir))
  obtain ⟨-, rfl⟩ := ok_inj (hstill.symm.trans hmade)
  obtain ⟨loc, content, mode, hl, hfile⟩ := isFileAt_iff.1 hfile
  exact habsent (existsAt_iff.2 ⟨loc, hl, by rw [hfile]; rfl⟩)

theorem not_unearths_of_not_up (hhere : c.get? here = some .directory) (hup : ".." ∉ hops p) :
    ¬ Unearths here p c d := by
  rintro ⟨sought, made, hsought, habsent, hmade, hfile, -⟩
  exact habsent (Files.existsAt_of_ensureParent (hsought.directory hhere) hup hmade hfile)

/-- One placeholder is made: its place holds an empty file, and elsewhere only directories come.
What stood there before was brought to light. -/
structure Makes (here : Location) (p : Path) (c d : Disk) (place : Location) : Prop where
  missing : ¬ c.existsAt here p
  grows : c.Grows d
  leads : d.locate here p = .ok place
  empty : ∃ mode, d.get? place = some (.file [] mode)
  fresh : (c.get? place).isSome → Unearths here p c d
  others : ∀ loc, loc ≠ place → SparedAt loc c d

theorem makes_of_openFile {dir : Location} {name : String} {mode : Mode}
    (hhere : c.get? here = some .directory) (hmissing : ¬ c.existsAt here p)
    (hparent : Files.ensureParent p here c = (.ok (), b))
    (hopen : Access.openFile p .data here b = (.ok (dir, name, mode), d)) :
    Makes here p c d (dir ++ [name]) := by
  have hclears : Clears p.Upward here c b := (Files.ensureParent_clears p).of_eq hparent
  have hlands := Access.openFile_lands (hclears.toExtends _ _ hhere) hopen
  refine
    { missing := hmissing
      grows := hclears.toExtends.grows.trans hlands.grows
      leads := hlands.leads
      empty := ⟨mode, hlands.stands⟩
      fresh := fun hstood => ?_
      others := fun loc hne => ?_ }
  · -- only directories were made on the way, so what stands there now stood there before
    rcases hlands.fresh with hnone | hfile
    · rw [← (hclears.sparedAt _).eq_of_isSome hstood, hnone] at hstood
      cases hstood
    · exact ⟨c, b, .refl c, hmissing, hparent, hfile, hlands.grows⟩
  · rw [SparedAt, hlands.others loc hne]
    exact hclears.sparedAt loc

/-- What making placeholders comes to, between the disk before it and the disk after it. -/
structure Fills (here : Location) (ps created : List Path) (c d : Disk) : Prop where
  grows : c.Grows d
  there : ∀ p ∈ ps, d.existsAt here p
  listed : created.Sublist ps
  missing : ∀ p ∈ created, ¬ c.existsAt here p
  made : ∀ p ∈ created, ∃ place mode, d.locate here p = .ok place ∧
    d.get? place = some (.file [] mode) ∧ ((c.get? place).isSome → Unearths here p c d)
  once : created.Pairwise fun p q => d.locate here p = d.locate here q → Unearths here q c d
  kept : ∀ loc e, c.get? loc = some e → d.get? loc = some e ∨
    ∃ p ∈ created, d.locate here p = .ok loc ∧ Unearths here p c d
  new : ∀ loc e, c.get? loc = none → d.get? loc = some e → e = .directory ∨
    (∃ mode, e = .file [] mode) ∧ ∃ p ∈ created, d.locate here p = .ok loc

namespace Fills

theorem nil (here : Location) (c : Disk) : Fills here [] [] c c where
  grows := .refl c
  there := by simp
  listed := .slnil
  missing := by simp
  made := by simp
  once := .nil
  kept _ _ he := .inl he
  new loc e hnone he := by simp [hnone] at he

theorem of_there (hhere : c.get? here = some .directory) (hp : c.existsAt here p)
    (h : Fills here rest created c d) : Fills here (p :: rest) created c d :=
  { h with
    there := List.forall_mem_cons.2 ⟨h.grows.existsAt hhere hp, h.there⟩
    listed := h.listed.cons p }

theorem empty {loc : Location} {mode : Mode} (h : Fills here ps created c d)
    (he : c.get? loc = some (.file [] mode)) : ∃ mode', d.get? loc = some (.file [] mode') := by
  rcases h.kept loc _ he with hsame | ⟨p, hp, hleads, -⟩
  · exact ⟨mode, hsame⟩
  · obtain ⟨place, mode', hleads', hempty, -⟩ := h.made p hp
    obtain rfl := Except.ok.inj (hleads.symm.trans hleads')
    exact ⟨mode', hempty⟩

theorem of_makes {place : Location} (hhere : c.get? here = some .directory)
    (hp : Makes here p c b place) (h : Fills here rest created b d) :
    Fills here (p :: rest) (p :: created) c d := by
  have hhere' := hp.grows.directory hhere
  obtain ⟨mode, hempty⟩ := hp.empty
  have hleads : d.locate here p = .ok place := h.grows.locate_file hempty hp.leads
  have hmono {q : Path} (hq : Unearths here q b d) : Unearths here q c d :=
    hq.mono hp.grows (.refl d)
  refine
    { grows := hp.grows.trans h.grows
      there := List.forall_mem_cons.2 ⟨?there, h.there⟩
      listed := h.listed.cons_cons p
      missing := List.forall_mem_cons.2 ⟨hp.missing, fun q hq hthere => ?missing⟩
      made := List.forall_mem_cons.2 ⟨?first, fun q hq => ?later⟩
      once := .cons (fun q hq hsame => ?once) (h.once.imp fun hone hsame => hmono (hone hsame))
      kept := fun loc e he => ?kept
      new := fun loc e hnone he => ?new }
  case there =>
    have hthere : b.existsAt here p :=
      existsAt_iff.2 ⟨place, locate_eq_ok_iff.1 hp.leads, by rw [hempty]; rfl⟩
    exact h.grows.existsAt hhere' hthere
  case missing => exact h.missing q hq (hp.grows.existsAt hhere hthere)
  case first =>
    obtain ⟨mode', hempty'⟩ := h.empty hempty
    exact ⟨place, mode', hleads, hempty', fun hstood => (hp.fresh hstood).mono (.refl c) h.grows⟩
  case later =>
    obtain ⟨loc, mode', hl, hempty', hfresh⟩ := h.made q hq
    exact ⟨loc, mode', hl, hempty', fun hstood => hmono (hfresh (hp.grows.isSome hstood))⟩
  case once =>
    obtain ⟨loc, -, hl, -, hfresh⟩ := h.made q hq
    obtain rfl := Except.ok.inj ((hleads.symm.trans hsame).trans hl)
    exact hmono (hfresh (by rw [hempty]; rfl))
  case kept =>
    by_cases hloc : loc = place
    · subst hloc
      exact .inr ⟨p, List.mem_cons_self, hleads,
        (hp.fresh (by rw [he]; rfl)).mono (.refl c) h.grows⟩
    · have hsame := (hp.others loc hloc).eq_of_isSome (by rw [he]; rfl)
      rcases h.kept loc e (hsame.trans he) with hkept | ⟨q, hq, hl, hunearths⟩
      · exact .inl hkept
      · exact .inr ⟨q, List.mem_cons_of_mem p hq, hl, hmono hunearths⟩
  case new =>
    by_cases hloc : loc = place
    · subst hloc
      obtain ⟨mode', hempty'⟩ := h.empty hempty
      obtain rfl := Option.some.inj (he.symm.trans hempty')
      exact .inr ⟨⟨mode', rfl⟩, p, List.mem_cons_self, hleads⟩
    · rcases hp.others loc hloc with hsame | ⟨-, hdir⟩
      · refine (h.new loc e (hsame.trans hnone) he).imp_right (And.imp_right ?_)
        rintro ⟨q, hq, hl⟩
        exact ⟨q, List.mem_cons_of_mem p hq, hl⟩
      · exact .inl (Option.some.inj (he.symm.trans (h.grows.directory hdir)))

/-- Placeholders fill the gaps of the disk on which directories were made for them. -/
theorem of_spared (hhere : c.get? here = some .directory) (hspared : ∀ loc, SparedAt loc c b)
    (hg : c.Grows b) (h : Fills here ps created b d) : Fills here ps created c d where
  grows := hg.trans h.grows
  there := h.there
  listed := h.listed
  missing p hp hthere := h.missing p hp (hg.existsAt hhere hthere)
  made p hp := by
    obtain ⟨loc, mode, hl, hempty, hfresh⟩ := h.made p hp
    exact ⟨loc, mode, hl, hempty, fun hstood => (hfresh (hg.isSome hstood)).mono hg (.refl d)⟩
  once := h.once.imp fun hone hsame => (hone hsame).mono hg (.refl d)
  kept loc e he := by
    have hsame := (hspared loc).eq_of_isSome (by rw [he]; rfl)
    refine (h.kept loc e (hsame.trans he)).imp_right ?_
    rintro ⟨p, hp, hl, hunearths⟩
    exact ⟨p, hp, hl, hunearths.mono hg (.refl d)⟩
  new loc e hnone he := by
    rcases hspared loc with hsame | ⟨-, hdir⟩
    · exact h.new loc e (hsame.trans hnone) he
    · exact .inl (Option.some.inj (he.symm.trans (h.grows.directory hdir)))

end Fills

theorem fills_of_makePlaceholders (hhere : m.disk.get? here = some .directory)
    (h : makePlaceholders ps here m = (.ok created, m')) :
    Fills here ps created m.disk m'.disk := by
  induction ps generalizing m created with
  | nil =>
    obtain ⟨rfl, rfl⟩ := ok_inj h
    exact .nil here m.disk
  | cons p rest ih =>
    by_cases hp : m.disk.existsAt here p
    · obtain ⟨m₁, ⟨hdisk, -⟩, hcons⟩ := makePlaceholders_of_there rest hp
      rw [hcons] at h
      exact .of_there hhere hp (hdisk ▸ ih (hdisk ▸ hhere) h)
    · obtain ⟨c, d, ⟨dir, name, mode⟩, more, m₁, hparent, hopen, rfl, hmore, rfl⟩ :=
        makePlaceholders_of_missing hp h
      have hmakes := makes_of_openFile hhere hp hparent hopen
      exact .of_makes hhere hmakes (ih (hmakes.grows.directory hhere) hmore)

/-- What a reservation comes to, between the machine before it and the machine after it. -/
structure Reserved (s : Stager) (here : Location) (ps : List Path) (r : Reservation)
    (m m' : Machine) : Prop where
  specs : ¬ s.layout.defaultSpecs.text.isEmpty → m'.disk.isDirAt here s.layout.defaultSpecs
  fills : Fills here ps r.created m.disk m'.disk
  unearths : ∀ p, Unearths here p m.disk m'.disk →
    ".." ∈ hops p ∧ ∀ parent, p.parent? = some parent → ¬ m.disk.isDirAt here parent
  again : ∃ r' m'', s.reserve ps here m' = (.ok r', m'') ∧ r'.created = [] ∧ m'.OnlyLogged m''

theorem reserved_of_reserve (hhere : m.disk.get? here = some .directory)
    (h : s.reserve ps here m = (.ok r, m')) : s.Reserved here ps r m m' := by
  have hagain := reserve_again hhere h (.refl _)
  obtain ⟨⟨⟩, m₁, hspecs, h⟩ := bind_eq_ok_iff.1 h
  obtain ⟨d, hd, rfl⟩ := Files.lift_eq_ok_iff.1 hspecs
  obtain ⟨created, m₂, hcreated, h⟩ := bind_eq_ok_iff.1 h
  obtain ⟨rfl, rfl⟩ := ok_inj h
  have hclears := (Files.ensureDir_clears _).of_eq hd
  have hfills := fills_of_makePlaceholders (hclears.toExtends _ _ hhere) hcreated
  refine
    { specs := fun htext => ?_
      fills := hfills.of_spared hhere hclears.sparedAt hclears.toExtends.grows
      unearths := fun p hp => ⟨?_, fun parent hparent hdir => ?_⟩
      again := hagain }
  · exact hfills.grows.isDirAt (Access.isDirAt_of_makeDirs hhere htext (mapError_eq_ok_iff.1 hd))
  · by_contra hup
    exact not_unearths_of_not_up hhere hup hp
  · exact not_unearths_of_isDirAt hparent hdir hp

section Standing

/-- The stagers have one layout, and on the disks of a kind their fetchers and installers do the
same. -/
structure AlikeOn (kind : Disk → Prop) (here : Location) (s t : Stager) : Prop where
  layout : t.layout = s.layout
  fetch : ∀ calls p dir m, kind m.disk →
    t.fetch calls p dir here m = s.fetch calls p dir here m
  install : ∀ calls archive home m, kind m.disk →
    t.install calls archive home here m = s.install calls archive home here m

def AllThere (ps : List Path) (here : Location) (d : Disk) : Prop := ∀ p ∈ ps, d.existsAt here p

theorem AllThere.grows (h : AllThere ps here c) (hhere : c.get? here = some .directory)
    (hg : c.Grows d) : AllThere ps here d := fun p hp => hg.existsAt hhere (h p hp)

variable {t : Stager} {w : World}

theorem copyBins_congr (hlayout : t.layout = s.layout) (entries : List Path) :
    t.copyBins entries = s.copyBins entries := by
  induction entries with
  | nil => rfl
  | cons entry rest ih =>
    have htarget : t.binTarget entry = s.binTarget entry := by
      rw [binTarget, binTarget, hlayout]
    rw [copyBins, copyBins, htarget, ih]

theorem publish_congr (hlayout : t.layout = s.layout) (p : Package) :
    t.publish p = s.publish p := by
  simp only [publish, copyLib, copyBin, copyDescriptor, hlayout, copyBins_congr hlayout]

section Congruence
variable (halike : AlikeOn (AllThere ps here) here s t)
variable (hgrows : ∀ calls p dir, Moves (OnDisk Grows) here (s.fetch calls p dir))
include halike hgrows

theorem obtain_congr (hhere : w.machine.disk.get? here = some .directory)
    (hw : AllThere ps here w.machine.disk) (p : Package) :
    t.obtain p here w = s.obtain p here w := by
  have hfetched : t.fetched here p w = s.fetched here p w := by
    rw [fetched, fetched, fetchCall, fetchCall, halike.layout]
    exact halike.fetch _ _ _ _ hw
  cases hx : s.fetched here p w with
  | mk x m =>
    cases x with
    | error f =>
      rw [obtain_of_fetched_error hx, obtain_of_fetched_error (hfetched.trans hx), fetchCall,
        fetchCall, halike.layout]
    | ok archive =>
      have hfst : (s.fetched here p w).1 = .ok archive := by rw [hx]
      have hthere : AllThere ps here (s.fetched here p w).2.disk :=
        hw.grows hhere (hgrows _ _ _ w.machine)
      have hinstalled : t.installed here p w archive = s.installed here p w archive := by
        rw [installed, installed, hfetched, fetchCall, fetchCall, installCall, installCall,
          halike.layout]
        exact halike.install _ _ _ _ hthere
      rw [obtain_of_fetched hfst, obtain_of_fetched (hfetched ▸ hfst), hinstalled, fetchCall,
        fetchCall, installCall, installCall, halike.layout]

theorem apply_congr (hhere : w.machine.disk.get? here = some .directory)
    (hw : AllThere ps here w.machine.disk) (a : Action) :
    t.apply r a here w = s.apply r a here w := by
  cases a with
  | skip p descriptor => rfl
  | stage p =>
    simp only [apply, publish_congr halike.layout]
    rw [bind_apply, bind_apply, obtain_congr halike hgrows hhere hw]

theorem applyAll_congr (hinstall : OnlyAdds here s.install)
    (hhere : w.machine.disk.get? here = some .directory)
    (hw : AllThere ps here w.machine.disk) (actions : List Action) :
    t.applyAll r actions here w = s.applyAll r actions here w := by
  induction actions generalizing w with
  | nil => rfl
  | cons a rest ih =>
    cases ha : s.apply r a here w with
    | mk x w₁ =>
      have hg : w.machine.disk.Grows w₁.machine.disk :=
        (apply_moves (fun _ _ hg => hg) hgrows hinstall r a).of_eq ha
      have ha' : t.apply r a here w = (x, w₁) := (apply_congr halike hgrows hhere hw a).trans ha
      rw [applyAll, applyAll, bind_apply_ok (attempt_of_eq ha), bind_apply_ok (attempt_of_eq ha')]
      cases x with
      | error f => rfl
      | ok o =>
        simp only
        rw [bind_apply, bind_apply, ih (hg.directory hhere) (hw.grows hhere hg)]

end Congruence

/-- What the parties of a run see behind a reservation: every placeholder is there when a package is
fetched and when its archive is installed, so that what they would do on a disk without one of them
is of no consequence to a run. -/
structure Stands (s : Stager) (here : Location) (ps : List Path) (r : Reservation) (m : Machine) :
    Prop where
  seen : ∀ calls before os w p,
    s.applyAll r before here ⟨m, calls⟩ = (.ok (os, none), w) →
      AllThere ps here w.machine.disk ∧ AllThere ps here (s.fetched here p w).2.disk
  whole : ∀ t : Stager, AlikeOn (AllThere ps here) here s t → ∀ calls actions,
    t.applyAll r actions here ⟨m, calls⟩ = s.applyAll r actions here ⟨m, calls⟩

theorem stands_of_allThere (hfetch : ∀ calls p dir, Moves (OnDisk Grows) here (s.fetch calls p dir))
    (hinstall : OnlyAdds here s.install) (hhere : m.disk.get? here = some .directory)
    (h : AllThere ps here m.disk) : s.Stands here ps r m where
  seen calls before os w p hbefore := by
    have hg : m.disk.Grows w.machine.disk :=
      (applyAll_moves (fun _ _ hg => hg) hfetch hinstall r before).of_eq hbefore
    have hw := h.grows hhere hg
    exact ⟨hw, hw.grows (hg.directory hhere) (hfetch _ _ _ w.machine)⟩
  whole t halike calls actions :=
    applyAll_congr (w := ⟨m, calls⟩) halike hfetch hinstall hhere h actions

end Standing

/-- Reserving fills the gaps among the placeholders and changes nothing else: the new files are the
empty ones at the placeholders that it lists, each of them one that was not there, and no file is
listed twice. A second time it does nothing. Behind it every fetch and every installation sees all
placeholders, if the installer removes nothing. A file that was there before is touched, and one is
listed again, only where a placeholder brought it to light. -/
theorem reserve_fills_gaps (hhere : m.disk.get? here = some .directory)
    (h : s.reserve ps here m = (.ok r, m')) :
    s.Reserved here ps r m m' ∧
      ∀ repository : Repository, s.fetch = (fun _ => repository.fetch) →
        OnlyAdds here s.install → s.Stands here ps r m' := by
  have hreserved := reserved_of_reserve hhere h
  refine ⟨hreserved, fun repository hfetch hinstall => ?_⟩
  refine stands_of_allThere ?_ hinstall (hreserved.fills.grows.directory hhere)
    hreserved.fills.there
  intro calls p dir
  rw [hfetch]
  exact repository.fetch_grows p dir

def furnished : Machine where
  disk := diskOf [([], "y", .file [75] .data), ([], "l", .directory), ([], "k", .link ⟨"l"⟩)]

def passive : Stager where
  layout := .resolve ⟨""⟩ ⟨⟨"t"⟩, ⟨"l"⟩, ⟨"b"⟩, ⟨"d"⟩⟩
  fetch := fun _ => emptyRepository.fetch
  install := unpacking fun _ => []

/-- What a reservation lists, and how the disk looks before and after it. -/
def reservedAs {α : Type} (ps : List Path) (look : Disk → α) : Except Fault (List Path) × α × α :=
  match passive.reserve ps [] furnished with
  | (x, m) => (x.map (·.created), look furnished.disk, look m.disk)

theorem reserve_of_reservedAs {α : Type} {look : Disk → α} {x y : α}
    (h : reservedAs ps look = (.ok created, x, y)) :
    ∃ r m', passive.reserve ps [] furnished = (.ok r, m') ∧ r.created = created ∧
      look furnished.disk = x ∧ look m'.disk = y := by
  rw [reservedAs] at h
  cases hx : passive.reserve ps [] furnished with
  | mk z m' =>
    rw [hx] at h
    obtain ⟨hcreated, hlook⟩ := Prod.mk.inj h
    obtain ⟨rfl, rfl⟩ := Prod.mk.inj hlook
    cases z with
    | error f => cases hcreated
    | ok r => exact ⟨r, m', rfl, Except.ok.inj hcreated, rfl, rfl⟩

/-- Under two spellings, one of them through a link, one file is made; a file that is there is
kept. -/
theorem reserve_fills_gaps_sample : ∃ r m',
    passive.reserve [⟨"k/p"⟩, ⟨"l/p"⟩, ⟨"y"⟩] [] furnished = (.ok r, m') ∧ r.created = [⟨"k/p"⟩] ∧
      passive.Reserved [] [⟨"k/p"⟩, ⟨"l/p"⟩, ⟨"y"⟩] r furnished m' ∧
      passive.Stands [] [⟨"k/p"⟩, ⟨"l/p"⟩, ⟨"y"⟩] r m' ∧
      m'.disk.get? ["l", "p"] = some (.file [] .data) := by
  have hx : reservedAs [⟨"k/p"⟩, ⟨"l/p"⟩, ⟨"y"⟩] (·.get? ["l", "p"]) =
      (.ok [⟨"k/p"⟩], none, some (.file [] .data)) := by decide +kernel
  obtain ⟨r, m', hreserve, hcreated, -, hfile⟩ := reserve_of_reservedAs hx
  obtain ⟨hreserved, hstands⟩ := reserve_fills_gaps (get?_root _) hreserve
  exact ⟨r, m', hreserve, hcreated, hreserved,
    hstands emptyRepository rfl (unpacking_onlyAdds _), hfile⟩

/-- A file that a placeholder leads to only once a directory was made is emptied, and one that was
made before it is listed again. -/
theorem unearthed_placeholder_samples :
    (∃ r m', passive.reserve [⟨"x/../y"⟩] [] furnished = (.ok r, m') ∧ r.created = [⟨"x/../y"⟩] ∧
      furnished.disk.get? ["y"] = some (.file [75] .data) ∧
      m'.disk.get? ["y"] = some (.file [] .data)) ∧
    ∃ r m', passive.reserve [⟨"n"⟩, ⟨"x/../n"⟩] [] furnished = (.ok r, m') ∧
      r.created = [⟨"n"⟩, ⟨"x/../n"⟩] ∧ m'.disk.locate [] ⟨"n"⟩ = .ok ["n"] ∧
      m'.disk.locate [] ⟨"x/../n"⟩ = .ok ["n"] := by
  constructor
  · have hx : reservedAs [⟨"x/../y"⟩] (·.get? ["y"]) =
        (.ok [⟨"x/../y"⟩], some (.file [75] .data), some (.file [] .data)) := by decide +kernel
    exact reserve_of_reservedAs hx
  · have hx : reservedAs [⟨"n"⟩, ⟨"x/../n"⟩]
          (fun d => (d.locate [] ⟨"n"⟩, d.locate [] ⟨"x/../n"⟩)) =
        (.ok [⟨"n"⟩, ⟨"x/../n"⟩], (.error .notFound, .error .notFound), .ok ["n"], .ok ["n"]) := by
      decide +kernel
    obtain ⟨r, m', hreserve, hcreated, -, hleads⟩ := reserve_of_reservedAs hx
    obtain ⟨hfirst, hsecond⟩ := Prod.mk.inj hleads
    exact ⟨r, m', hreserve, hcreated, hfirst, hsecond⟩

end GemStaging.Staging.Stager
