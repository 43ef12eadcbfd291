import GemStaging.Proofs.Disk.Agreement
import GemStaging.Proofs.Files.Overlay
import GemStaging.Proofs.Staging.Confinement
import GemStaging.Proofs.Staging.Publishing
import Mathlib.Algebra.GroupWithZero.Nat

/-!
The shared tree as a merge. What a run makes of the shared tree is what was there before with the
library trees of the staged packages laid over it, one after another: package by package in the
order of the actions, and for each package directory by directory in ascending order
(`Stager.shared_eq_merge`).
-/

namespace GemStaging

open Effect Disk GemStaging.Path

variable {here : Location}

namespace Tree

def empty : Tree := fun _ => none

/-- A tree with others laid over it, one after another. -/
def merge (old : Tree) (news : List Tree) : Tree := news.foldl (fun t new => new.atop t) old

theorem empty_atop (t : Tree) : Tree.empty.atop t = t := rfl

theorem merge_append (old : Tree) (news more : List Tree) :
    old.merge (news ++ more) = (old.merge news).merge more := List.foldl_append

end Tree

namespace Disk
variable {c d : Disk} {p q : Path}

/-- What a directory holds, as a tree: the empty one where it holds nothing, or is no directory. -/
def treeAt (d : Disk) (here : Location) (p : Path) : Tree :=
  match d.locate here p with
  | .ok loc => if d.names loc = [] then .empty else d.under loc
  | .error _ => .empty

theorem treeAt_of_namesAt_nil (h : d.namesAt here p = []) : d.treeAt here p = .empty := by
  rw [treeAt]
  rw [namesAt] at h
  split
  · rename_i loc hl
    rw [hl] at h
    exact if_pos h
  · rfl

theorem Plain.treeAt_eq (hd : d.Plain) (h : d.namesAt here p ≠ []) :
    d.treeAt here p = d.under (goal here p) := by
  rw [namesAt] at h
  rw [treeAt]
  split
  · rename_i loc hl
    obtain rfl : loc = goal here p := hd.loc_of_resolve (locate_eq_ok_iff.1 hl)
    rw [hl] at h
    exact if_neg h
  · rename_i e hl
    simp [hl] at h

theorem Plain.namesAt_eq (hd : d.Plain) (h : d.namesAt here p ≠ []) :
    d.namesAt here p = d.names (goal here p) := by
  rw [namesAt] at h ⊢
  split
  · rename_i loc hl
    have hloc : loc = goal here p := hd.loc_of_resolve (locate_eq_ok_iff.1 hl)
    rw [hloc]
  · rename_i e hl
    simp [hl] at h

theorem Agree.treeAt {region : Location → Prop} (h : Agree region c d) (hc : c.Plain)
    (hp : ∀ x, Around here p x → region x) : c.treeAt here p = d.treeAt here p := by
  have hstops : ∀ x ∈ stops here p, region x := fun x hx => hp x (.inl hx)
  rw [Disk.treeAt, Disk.treeAt, ← h.locate hc hstops]
  split
  · rename_i loc hl
    obtain rfl : loc = goal here p := hc.loc_of_resolve (locate_eq_ok_iff.1 hl)
    have hbelow (rest : Location) : c.get? (goal here p ++ rest) = d.get? (goal here p ++ rest) :=
      h _ (hp _ (.inr (List.prefix_append _ _)))
    have hnames : c.names (goal here p) = d.names (goal here p) :=
      names_congr fun name => by rw [hbelow [name]]
    rw [hnames, show c.under (goal here p) = d.under (goal here p) from funext hbelow]
  · rfl

theorem Plain.directory_of_namesAt (hd : d.Plain) (hhere : d.get? here = some .directory)
    (h : d.namesAt here p ≠ []) : ∀ x ∈ stops here p, d.get? x = some .directory := by
  obtain ⟨name, hname⟩ := List.exists_mem_of_ne_nil _ h
  obtain ⟨loc, hl, hsome⟩ := mem_namesAt_iff.1 hname
  have hloc : loc = goal here p := hd.loc_of_resolve hl
  intro x hx
  rcases hd.directory_of_resolve hhere hl x hx with hdir | rfl
  · exact hdir
  · exact hloc ▸ d.get?_parent hsome

end Disk

namespace Staging

/-- How many library entries were copied, where a package was staged. -/
def Outcome.libEntries? : Outcome → Option Nat
  | .skipped _ => none
  | .staged x => some x.libEntries

namespace Stager

section Copying
variable {base dir : Path} {c d : Disk} {n : Nat}
variable (hstraight : Straight here dir)
include hstraight

theorem copyAllInto_overlaid {names : List String} {new : Tree}
    (hapart : ∀ x, Around here dir x → ¬ goal here base <+: x)
    (hnames : ∀ name ∈ names, IsName name) (hnew : ∀ name ∈ names, (new [name]).isSome)
    (hc : c.Plain) (hhere : c.get? here = some .directory)
    (hsource : c.under (goal here base) = new)
    (h : copyAllInto dir (names.map (base / ·)) here c = (.ok n, d)) :
    Overlaid (stops here dir) (goal here dir) new names c d ∧ n = names.length := by
  have hways := fun x hx => hstraight.not_prefix_goal (x := x) hx
  induction names generalizing c n with
  | nil =>
    obtain ⟨hn, rfl⟩ := ok_inj h
    exact ⟨.nil c, hn.symm⟩
  | cons name rest ih =>
    obtain ⟨hname, hrest⟩ := List.forall_mem_cons.1 hnames
    obtain ⟨hsome, hsomes⟩ := List.forall_mem_cons.1 hnew
    obtain ⟨q, c₁, hcopy, h⟩ := bind_eq_ok_iff.1 h
    obtain ⟨more, c₂, hmore, h⟩ := bind_eq_ok_iff.1 h
    obtain ⟨rfl, rfl⟩ := ok_inj h
    have hlays :
        Files.Lays here [here] (stops here dir) (goal here base) (goal here dir) new name _ :=
      Files.copyInto_lays hname hapart hstraight
    obtain ⟨hc₁, hpaved₁, hsource₁, hone⟩ :=
      hlays.overlaid hways hsome hc (by simpa using hhere) hsource hcopy
    have hhere₁ := hpaved₁ here (List.mem_singleton_self here)
    obtain ⟨hothers, rfl⟩ := ih hrest hsomes hc₁ hhere₁ hsource₁ hmore
    exact ⟨hone.cons hways hothers, rfl⟩

/-- Where all that a directory holds was overlaid, its tree lies over what stood at the goal. -/
theorem under_of_overlaid (hc : c.Plain) (hhere : c.get? here = some .directory)
    (hnil : c.namesAt here base ≠ [])
    (hlaid : Overlaid (stops here dir) (goal here dir) (c.under (goal here base))
      (c.namesAt here base) c d) :
    d.under (goal here dir) = (c.treeAt here base).atop (c.under (goal here dir)) := by
  have hways := fun x hx => hstraight.not_prefix_goal (x := x) hx
  have hbase := hc.directory_of_namesAt hhere hnil _ (goal_mem_stops here base)
  funext rest
  rw [hc.treeAt_eq hnil, Tree.atop]
  rw [hc.namesAt_eq hnil] at hlaid
  cases rest with
  | nil =>
    have htop := hlaid.others (goal here dir) fun name _ hp => absurd hp.length_le (by simp)
    rw [if_pos ⟨hc.namesAt_eq hnil ▸ hnil, goal_mem_stops here dir⟩] at htop
    simp [under, hbase, htop]
  | cons name more =>
    exact hlaid.get?_below hways (fun _ hn => under_of_not_mem_names hn) name more

theorem under_of_copyAllInto (hapart : ∀ x, Around here dir x → ¬ goal here base <+: x)
    (hc : c.Plain) (hhere : c.get? here = some .directory)
    (h : copyAllInto dir ((c.namesAt here base).map (base / ·)) here c = (.ok n, d)) :
    d.under (goal here dir) = (c.treeAt here base).atop (c.under (goal here dir)) ∧
      n = (c.namesAt here base).length := by
  by_cases hnil : c.namesAt here base = []
  · rw [hnil] at h
    obtain ⟨hn, rfl⟩ := Prod.mk.inj h
    rw [treeAt_of_namesAt_nil hnil, hnil, Tree.empty_atop]
    exact ⟨rfl, (Except.ok.inj hn).symm⟩
  · have hnew : ∀ name ∈ c.namesAt here base, (c.under (goal here base) [name]).isSome := by
      intro name hname
      rw [hc.namesAt_eq hnil] at hname
      exact (c.mem_names_iff _ _).1 hname
    obtain ⟨hlaid, hn⟩ := copyAllInto_overlaid hstraight hapart
      (fun name hname => hc.isName_of_mem_namesAt hname) hnew hc hhere rfl h
    exact ⟨under_of_overlaid hstraight hc hhere hnil hlaid, hn⟩

end Copying

section Merging
variable {gems dir : Path} {snapshot c d : Disk} {n : Nat}
variable (hapart : Apart here gems dir) (hstraight : Straight here dir)
include hapart hstraight

/-- Copying the libraries of some packages lays the trees that they were when the copying began
over what stands at the goal, one after another. -/
theorem under_of_copyLibs {dirs : List String} (hdirs : ∀ name ∈ dirs, IsName name)
    (hsnapshot : snapshot.Plain) (hfixed : ∀ x ∈ stops here gems, snapshot.get? x = some .directory)
    (hgrows : snapshot.Grows c) (hagree : Agree (Around here gems) snapshot c)
    (hc : c.Plain) (hhere : c.get? here = some .directory)
    (h : copyLibs dir (dirs.map (gems / ·)) here c = (.ok n, d)) :
    d.under (goal here dir) = (c.under (goal here dir)).merge
        (dirs.map fun name => snapshot.treeAt here (gems / name / "lib")) ∧
      n = (dirs.map fun name => (snapshot.namesAt here (gems / name / "lib")).length).sum := by
  induction dirs generalizing c n with
  | nil =>
    obtain ⟨hn, rfl⟩ := ok_inj h
    exact ⟨rfl, hn.symm⟩
  | cons name rest ih =>
    obtain ⟨hname, hrest⟩ := List.forall_mem_cons.1 hdirs
    obtain ⟨k, more, c₂, hcopy, hmore, rfl⟩ := copyLibs_cons_eq_ok h
    have hlib : ∀ n ∈ [name, "lib"], IsName n := by simpa using ⟨hname, by decide⟩
    have hbelow : gems / name / "lib" = gems.below [name, "lib"] := rfl
    have hlibApart : Apart here (gems / name / "lib") dir := hbelow ▸ hapart.below hlib
    obtain ⟨hunder, rfl⟩ := under_of_copyAllInto hstraight
      (fun x hx => hlibApart.symm.not_below hx) hc hhere hcopy
    have hg : c.Grows c₂ := (copyAllInto_grows _ _).of_eq hcopy
    obtain ⟨hc₂, hsame⟩ := (copyAllInto_confined (fun _ hx => hx)
      fun n hn => hc.isName_of_mem_namesAt hn).of_eq hcopy hc
    -- what lies on the way to the packages is a directory and stays one; nothing is copied to them
    have hagree₂ : Agree (Around here gems) snapshot c₂ := by
      intro x hx
      rcases hx with hx | hx
      · rw [hfixed x hx, (hgrows.trans hg).directory (hfixed x hx)]
      · rw [hagree x (.inr hx), hsame]
        exact fun hx' => hapart.symm.not_below hx' hx
    obtain ⟨hothers, rfl⟩ := ih hrest (hgrows.trans hg) hagree₂ hc₂ (hg.directory hhere) hmore
    have haround {x : Location} (hx : Around here (gems / name / "lib") x) : Around here gems x :=
      around_of_around_below hlib (hbelow ▸ hx)
    have htree := hagree.treeAt (p := gems / name / "lib") hsnapshot fun _ hx => haround hx
    have hnames := hagree.namesAt (p := gems / name / "lib") hsnapshot
      (fun _ hx => haround (.inl hx)) fun _ => haround (.inr (List.prefix_append _ _))
    rw [hothers, hunder, ← htree, ← hnames]
    exact ⟨rfl, rfl⟩

end Merging

variable {s : Stager} {p : Package} {d d' : Disk}

/-- The library trees of a package, directory by directory. -/
def libTrees (s : Stager) (here : Location) (p : Package) (d : Disk) : List Tree :=
  (s.unpackedNames here p d).map fun dir => d.treeAt here (s.layout.gemsDir / dir / "lib")

/-- How many entries the libraries of a package have at their top. -/
def libCount (s : Stager) (here : Location) (p : Package) (d : Disk) : Nat :=
  ((s.unpackedNames here p d).map fun dir =>
    (d.namesAt here (s.layout.gemsDir / dir / "lib")).length).sum

theorem under_of_copyLib {n : Nat} (hapart : Apart here s.layout.gemsDir s.layout.sharedLib)
    (hstraight : Straight here s.layout.sharedLib) (hd : d.Plain)
    (hhere : d.get? here = some .directory) (h : s.copyLib p here d = (.ok n, d')) :
    d'.under (goal here s.layout.sharedLib) =
        (d.under (goal here s.layout.sharedLib)).merge (s.libTrees here p d) ∧
      n = s.libCount here p d := by
  rw [copyLib_apply, unpackedAt_eq hd] at h
  by_cases hnil : s.unpackedNames here p d = []
  · rw [hnil] at h
    obtain ⟨hn, rfl⟩ := Prod.mk.inj h
    rw [libTrees, libCount, hnil]
    exact ⟨rfl, (Except.ok.inj hn).symm⟩
  · have hnames : d.namesAt here s.layout.gemsDir ≠ [] := by
      intro hempty
      rw [unpackedNames, hempty] at hnil
      exact hnil rfl
    exact under_of_copyLibs hapart hstraight
      (fun name hname => hd.isName_of_mem_namesAt (List.mem_of_mem_filter hname)) hd
      (hd.directory_of_namesAt hhere hnames) (.refl d) (.refl d) hd hhere h

/-- The installer makes no links, writes only around the gem home, and leaves the current
directory where it is. -/
structure Homebound (s : Stager) (here : Location) : Prop where
  confined : ∀ calls archive, Moves (OnDisk (Confined (Around here s.layout.gemHome))) here
    (s.install calls archive s.layout.gemHome)
  stays : ∀ calls archive, Moves (OnDisk (Stays here)) here
    (s.install calls archive s.layout.gemHome)

/-- The shared tree is apart from the other directories of the layout, and its path does not go
through places below it. -/
structure Separate (l : Layout) (here : Location) : Prop where
  straight : Straight here l.sharedLib
  build : Apart here l.buildDir l.sharedLib
  stubs : Apart here l.binStubs l.sharedLib
  specs : Apart here l.defaultSpecs l.sharedLib

/-- The library trees that staging a package adds to the shared tree: none where it is spec-only. -/
def addedTrees (s : Stager) (here : Location) (q : Package × Disk) : List Tree :=
  if q.1.specOnly then [] else s.libTrees here q.1 q.2

def addedCount (s : Stager) (here : Location) (q : Package × Disk) : Nat :=
  if q.1.specOnly then 0 else s.libCount here q.1 q.2

theorem under_eq_of_confined {p q : Path} {c d : Disk}
    (hclear : ∀ x, Around here p x → ¬ goal here q <+: x) (hc : c.Plain)
    (h : Confined (Around here p) c d) : d.under (goal here q) = c.under (goal here q) :=
  funext fun _ => (h hc).2 _ fun hx => hclear _ hx (List.prefix_append _ _)

section Acting
variable {base : Path} {config : LayoutSection} (hlayout : s.layout = .resolve base config)
variable (hseparate : Separate s.layout here)
include hlayout

theorem obtain_confined {r : Repository} (hfetch : s.fetch = fun _ => r.fetch)
    (hinstall : Homebound s here) (hslash : p.Slashless) :
    Moves (OnMachine (OnDisk (Confined (Around here s.layout.buildDir)))) here (s.obtain p) := by
  refine .bind (Run.call_moves fun calls => ?_) fun archive => Run.call_moves fun calls => ?_
  · rw [hfetch]
    exact r.fetch_confined hslash fun _ hx => hx
  · refine .mapError (fun m => ?_) _
    refine (hinstall.confined calls archive m).mono fun x hx => ?_
    rw [Layout.gemHome_eq hlayout] at hx
    exact around_of_around_div (by decide) hx

omit hlayout in
theorem obtain_stays {r : Repository} (hfetch : s.fetch = fun _ => r.fetch)
    (hinstall : Homebound s here) : Moves (OnMachine (OnDisk (Stays here))) here (s.obtain p) := by
  refine .bind (Run.call_moves fun calls => ?_) fun archive => Run.call_moves fun calls => ?_
  · rw [hfetch]
    exact fun m hhere => (r.fetch_grows p _ m).directory hhere
  · exact .mapError (hinstall.stays calls archive) _

include hseparate

theorem apart_gemsDir : Apart here s.layout.gemsDir s.layout.sharedLib := by
  rw [Layout.gemsDir_eq hlayout]
  exact hseparate.build.below (by decide)

theorem under_of_publish {x : Staged} {m m' : Machine} (hslash : p.Slashless) (hm : m.disk.Plain)
    (hhere : m.disk.get? here = some .directory) (h : s.publish p here m = (.ok x, m')) :
    m'.disk.Plain ∧
      m'.disk.under (goal here s.layout.sharedLib) =
        (m.disk.under (goal here s.layout.sharedLib)).merge (s.addedTrees here (p, m.disk)) ∧
      x.libEntries = s.addedCount here (p, m.disk) := by
  obtain ⟨m₁, m₂, hlib, hbin, hdescriptor, -⟩ := publish_eq_ok h
  have hgems := Layout.steps_gemsDir hlayout
  have hlibs : m₁.disk.Plain ∧
      m₁.disk.under (goal here s.layout.sharedLib) =
        (m.disk.under (goal here s.layout.sharedLib)).merge (s.addedTrees here (p, m.disk)) ∧
      x.libEntries = s.addedCount here (p, m.disk) := by
    rw [addedTrees, addedCount]
    split at hlib
    · rename_i hspec
      obtain ⟨hn, hdisk⟩ := hlib
      rw [hdisk, if_pos hspec, if_pos hspec]
      exact ⟨hm, rfl, hn⟩
    · rename_i hspec
      rw [if_neg hspec, if_neg hspec]
      have hapart := apart_gemsDir hlayout hseparate
      exact ⟨(copyLib_confined fun _ hx => hx).of_eq hlib hm |>.1,
        under_of_copyLib hapart hseparate.straight hm hhere hlib⟩
  obtain ⟨hm₁, hunder, hcount⟩ := hlibs
  have hbins := (copyBin_confined hslash hgems fun _ hx => hx).of_eq hbin
  have hspecs := (copyDescriptor_confined fun _ hx => hx).of_eq hdescriptor
  have hm₂ := (hbins hm₁).1
  refine ⟨(hspecs hm₂).1, ?_, hcount⟩
  rw [under_eq_of_confined (fun _ => hseparate.specs.not_below) hm₂ hspecs,
    under_eq_of_confined (fun _ => hseparate.stubs.not_below) hm₁ hbins, hunder]

/-- Staging a package lays the library trees that it has once it is installed over the shared
tree. -/
theorem under_of_stage {r : Reservation} {repository : Repository}
    (hfetch : s.fetch = fun _ => repository.fetch) (hinstall : Homebound s here) {o : Outcome}
    {w w' : World} (hslash : p.Slashless) (hw : w.machine.disk.Plain)
    (hhere : w.machine.disk.get? here = some .directory)
    (h : s.apply r (.stage p) here w = (.ok o, w')) :
    w'.machine.disk.Plain ∧ w'.machine.disk.get? here = some .directory ∧
      w'.machine.disk.under (goal here s.layout.sharedLib) =
        (w.machine.disk.under (goal here s.layout.sharedLib)).merge
          (s.addedTrees here (p, (s.obtain p here w).2.machine.disk)) ∧
      o.libEntries? = some (s.addedCount here (p, (s.obtain p here w).2.machine.disk)) := by
  obtain ⟨w₁, x, hobtain, hpublish, rfl⟩ := apply_stage_eq_ok h
  have hconfined := (obtain_confined hlayout hfetch hinstall hslash).of_eq hobtain
  have hhere₁ := (obtain_stays hfetch hinstall).of_eq hobtain hhere
  have hw₁ := (hconfined hw).1
  obtain ⟨hw', hunder, hcount⟩ := under_of_publish hlayout hseparate hslash hw₁ hhere₁ hpublish
  rw [under_eq_of_confined (fun _ => hseparate.build.not_below) hw hconfined] at hunder
  have hg : w₁.machine.disk.Grows w'.machine.disk := (publish_grows s p).of_eq hpublish
  rw [hobtain]
  exact ⟨hw', hg.directory hhere₁, hunder, congrArg some hcount⟩

theorem under_of_applyAll {r : Reservation} {repository : Repository}
    (hfetch : s.fetch = fun _ => repository.fetch) (hinstall : Homebound s here)
    {actions : List Action} (hslash : ∀ p, .stage p ∈ actions → p.Slashless) {w w' : World}
    (hw : w.machine.disk.Plain) (hhere : w.machine.disk.get? here = some .directory)
    {os : List Outcome} (h : s.applyAll r actions here w = (.ok (os, none), w')) :
    w'.machine.disk.under (goal here s.layout.sharedLib) =
        (w.machine.disk.under (goal here s.layout.sharedLib)).merge
          ((s.stagings r here actions w).flatMap (s.addedTrees here)) ∧
      os.filterMap Outcome.libEntries? = (s.stagings r here actions w).map (s.addedCount here) := by
  induction actions generalizing w os with
  | nil =>
    obtain ⟨hos, rfl⟩ := ok_inj h
    obtain ⟨rfl, -⟩ := Prod.mk.inj hos
    exact ⟨rfl, rfl⟩
  | cons a rest ih =>
    obtain ⟨o, w₁, more, ha, hrest, rfl⟩ := applyAll_cons_eq_ok h
    have hrestSlash : ∀ p, .stage p ∈ rest → p.Slashless := fun p hp =>
      hslash p (List.mem_cons_of_mem _ hp)
    rw [stagings, ha]
    cases a with
    | skip q descriptor =>
      obtain ⟨m, hskip, hdisk, -⟩ := apply_skip s r q descriptor w
      obtain ⟨rfl, rfl⟩ := ok_inj (hskip.symm.trans ha)
      have hothers := ih hrestSlash (hdisk ▸ hw) (hdisk ▸ hhere) hrest
      rwa [hdisk] at hothers
    | stage p =>
      obtain ⟨hw₁, hhere₁, hunder, hcount⟩ :=
        under_of_stage hlayout hseparate hfetch hinstall (hslash p List.mem_cons_self) hw hhere ha
      obtain ⟨hothers, hcounts⟩ := ih hrestSlash hw₁ hhere₁ hrest
      rw [hothers, hunder, List.flatMap_cons, Tree.merge_append, List.filterMap_cons, hcount,
        hcounts]
      exact ⟨rfl, rfl⟩

/-- When all actions of a run were carried out, the shared tree is what it was once the places
were reserved, with the library trees of the staged packages laid over it in turn, each as it was
right after the package was installed. The packages are those of the actions that are no skips,
their directories come in ascending order, and each count of library entries says how many were
added. -/
theorem shared_eq_merge {repository : Repository} (hfetch : s.fetch = fun _ => repository.fetch)
    (hinstall : Homebound s here) {actions : List Action}
    (hslash : ∀ p, .stage p ∈ actions → p.Slashless) {w w' : World} (hw : w.machine.disk.Plain)
    (hhere : w.machine.disk.get? here = some .directory) {placeholders : List Path}
    {r : Reservation} {m : Machine} (hreserve : s.reserve placeholders here w.machine = (.ok r, m))
    {os : List Outcome}
    (h : s.applyAll r actions here { w with machine := m } = (.ok (os, none), w')) :
    let stagings := s.stagings r here actions { w with machine := m }
    w'.machine.disk.under (goal here s.layout.sharedLib) =
        (m.disk.under (goal here s.layout.sharedLib)).merge (stagings.flatMap (s.addedTrees here)) ∧
      os.filterMap Outcome.libEntries? = stagings.map (s.addedCount here) ∧
      stagings.map (·.1) = (actions.filter (!·.isSkip)).map Action.package ∧
      ∀ q ∈ stagings, (s.unpackedNames here q.1 q.2).Pairwise (· < ·) := by
  intro stagings
  have hm := ((reserve_confined s placeholders).of_eq hreserve hw).1
  have hg : w.machine.disk.Grows m.disk := (reserve_grows s placeholders).of_eq hreserve
  obtain ⟨hunder, hcounts⟩ :=
    under_of_applyAll hlayout hseparate hfetch hinstall hslash hm (hg.directory hhere) h
  exact ⟨hunder, hcounts, fst_stagings h, fun q _ => unpackedNames_ascending s here q.1 q.2⟩

end Acting

end Stager

/-- No directory of the layout lies in another one. -/
def Unnested (l : Layout) (here : Location) : Prop :=
  [l.buildDir, l.sharedLib, l.binStubs, l.defaultSpecs].Pairwise fun p q =>
    ¬ goal here p <+: goal here q ∧ ¬ goal here q <+: goal here p

instance (l : Layout) (here : Location) : Decidable (Unnested l here) :=
  inferInstanceAs (Decidable (List.Pairwise _ _))

/-- Where no path of a layout moves up, it is enough that no directory lies in another one. -/
theorem separate_of_not_up {l : Layout} (hnested : Unnested l here)
    (hup : ∀ p ∈ [l.buildDir, l.sharedLib, l.binStubs, l.defaultSpecs], ".." ∉ hops p) :
    Stager.Separate l here := by
  simp only [Unnested, List.pairwise_cons, List.mem_cons, forall_eq_or_imp] at hnested
  simp only [List.mem_cons, forall_eq_or_imp] at hup
  obtain ⟨hbuild, hshared, hstubs, hspecs, -⟩ := hup
  obtain ⟨⟨hbuildShared, -⟩, ⟨hsharedStubs, hsharedSpecs, -⟩, -⟩ := hnested
  exact ⟨straight_of_not_up hshared, apart_of_not_up hbuild hshared hbuildShared.1 hbuildShared.2,
    apart_of_not_up hstubs hshared hsharedStubs.2 hsharedStubs.1,
    apart_of_not_up hspecs hshared hsharedSpecs.2 hsharedSpecs.1⟩

/-- What is in the archive of a package: a library file, an executable and the descriptor. -/
def sampleFiles : List (List String) :=
  [["gems", "a-1", "lib", "x"], ["gems", "a-1", "bin", "e"], ["specifications", "a-1.gemspec"]]

def sampleContents (_ : Path) : List (String × String) :=
  sampleFiles.map fun names => ((ofNames names).text, "")

theorem isName_sampleContents (archive : Path) : ∀ file ∈ sampleContents archive,
    ∃ names : List String, (∀ name ∈ names, IsName name) ∧ (⟨file.1⟩ : Path) = ofNames names := by
  intro file hfile
  obtain ⟨names, hmem, rfl⟩ := List.mem_map.1 hfile
  have hnames : ∀ names ∈ sampleFiles, ∀ name ∈ names, IsName name := by decide
  exact ⟨names, hnames names hmem, rfl⟩

def stagerOf (config : LayoutSection) : Stager where
  layout := .resolve ⟨"/"⟩ config
  fetch := fun _ => emptyRepository.fetch
  install := unpacking sampleContents

theorem homebound_stagerOf (config : LayoutSection) : Stager.Homebound (stagerOf config) here := by
  have hinstall : (stagerOf config).install = unpacking sampleContents := rfl
  constructor
  · intro calls archive
    rw [hinstall]
    exact unpacking_confined isName_sampleContents calls archive _
  · intro calls archive m hhere
    rw [hinstall]
    exact (unpacking_onlyAdds sampleContents calls archive _ m).directory hhere

def archived : World where
  machine.disk := diskOf [([], "t", .directory), (["t"], "a-1.gem", .file [] .data)]

theorem plain_archived : archived.machine.disk.Plain := plain_diskOf (by decide)

def packageA : Package := ⟨"a", "1", false⟩

/-- Some actions are carried out to the end, starting with the archive. -/
structure Completed (s : Stager) (actions : List Action) (r : Reservation) (m : Machine)
    (os : List Outcome) (w' : World) : Prop where
  reserved : s.reserve [] [] archived.machine = (.ok r, m)
  applied : s.applyAll r actions [] { archived with machine := m } = (.ok (os, none), w')

/-- What stands at a place of the shared tree when some actions were carried out, and in the
merge, with the counts of library entries. -/
def sharedAt (s : Stager) (actions : List Action) (rest : Location) :
    Option (Option Entry × Option Entry × List Nat) :=
  match s.reserve [] [] archived.machine with
  | (.error _, _) => none
  | (.ok r, m) =>
    match s.applyAll r actions [] { archived with machine := m } with
    | (.ok (os, none), w') =>
      some (w'.machine.disk.under (goal [] s.layout.sharedLib) rest,
        (m.disk.under (goal [] s.layout.sharedLib)).merge
          ((s.stagings r [] actions { archived with machine := m }).flatMap (s.addedTrees [])) rest,
        os.filterMap Outcome.libEntries?)
    | _ => none

theorem completed_of_sharedAt {s : Stager} {actions : List Action} {rest : Location}
    {x y : Option Entry} {counts : List Nat} (h : sharedAt s actions rest = some (x, y, counts)) :
    ∃ r m os w', Completed s actions r m os w' ∧
      w'.machine.disk.under (goal [] s.layout.sharedLib) rest = x ∧
      (m.disk.under (goal [] s.layout.sharedLib)).merge
          ((s.stagings r [] actions { archived with machine := m }).flatMap (s.addedTrees []))
          rest = y ∧
      os.filterMap Outcome.libEntries? = counts := by
  rw [sharedAt] at h
  split at h
  · simp at h
  · rename_i r m hreserve
    split at h
    · rename_i os w' hacts
      obtain ⟨hx, hy, hcounts⟩ : _ ∧ _ ∧ _ := by simpa using h
      exact ⟨r, m, os, w', ⟨hreserve, hacts⟩, hx, hy, hcounts⟩
    · simp at h

/-- A run that succeeds with unnested directories does not leave the merge of the libraries in the
shared tree. -/
def Unmerged (config : LayoutSection) (p : Package) : Prop :=
  Unnested (stagerOf config).layout [] ∧
    Stager.Homebound (stagerOf config) [] ∧ p.Slashless ∧
    ∃ r m os w', Completed (stagerOf config) [.stage p] r m os w' ∧
      w'.machine.disk.under (goal [] (stagerOf config).layout.sharedLib) ≠
        (m.disk.under (goal [] (stagerOf config).layout.sharedLib)).merge
          (((stagerOf config).stagings r [] [.stage p] { archived with machine := m }).flatMap
            ((stagerOf config).addedTrees []))

theorem unmerged_of_sharedAt {config : LayoutSection} {p : Package} (rest : Location)
    {x y : Option Entry} {counts : List Nat}
    (hnested : Unnested (stagerOf config).layout []) (hslash : p.Slashless)
    (h : sharedAt (stagerOf config) [.stage p] rest = some (x, y, counts))
    (hxy : x ≠ y) : Unmerged config p := by
  obtain ⟨r, m, os, w', hcompleted, hx, hy, -⟩ := completed_of_sharedAt h
  refine ⟨hnested, homebound_stagerOf _, hslash, r, m, os, w', hcompleted, ?_⟩
  intro heq
  exact hxy (hx.symm.trans ((congrFun heq rest).trans hy))

/-- A path of the shared tree that goes through a place below it, and a stub root whose path goes
through the shared tree. -/
theorem unmerged_samples :
    Unmerged ⟨⟨"t"⟩, ⟨"l/z/.."⟩, ⟨"b"⟩, ⟨"d"⟩⟩ packageA ∧
      Unmerged ⟨⟨"t"⟩, ⟨"l"⟩, ⟨"l/../b"⟩, ⟨"d"⟩⟩ { packageA with specOnly := true } := by
  constructor
  · exact unmerged_of_sharedAt ["z"] (by decide +kernel) ⟨by decide, by decide⟩
      (by decide +kernel : _ = some (some .directory, none, [1])) (by simp)
  · exact unmerged_of_sharedAt [] (by decide +kernel) ⟨by decide, by decide⟩
      (by decide +kernel : _ = some (some .directory, none, [0])) (by simp)

def sampleStager : Stager := stagerOf ⟨⟨"t"⟩, ⟨"l"⟩, ⟨"b"⟩, ⟨"d"⟩⟩

def sampleActions : List Action := [.skip ⟨"c", "1", false⟩ "c-1.gemspec", .stage packageA]

theorem shared_eq_merge_sample : ∃ r m os w', Completed sampleStager sampleActions r m os w' ∧
    os.filterMap Outcome.libEntries? = [1] ∧
    w'.machine.disk.under (goal [] sampleStager.layout.sharedLib) =
      (m.disk.under (goal [] sampleStager.layout.sharedLib)).merge
        ((sampleStager.stagings r [] sampleActions { archived with machine := m }).flatMap
          (sampleStager.addedTrees [])) := by
  have hends : (sharedAt sampleStager sampleActions []).map (·.2.2) = some [1] := by decide +kernel
  obtain ⟨⟨x, y, counts⟩, hshared, hcounts⟩ := Option.map_eq_some_iff.1 hends
  obtain ⟨r, m, os, w', hcompleted, -, -, hos⟩ := completed_of_sharedAt hshared
  have hseparate : Stager.Separate sampleStager.layout [] :=
    separate_of_not_up (by decide +kernel) (by decide +kernel)
  have hinstall : Stager.Homebound sampleStager [] := homebound_stagerOf _
  have hslash : ∀ p, .stage p ∈ sampleActions → p.Slashless := by
    intro p hp
    obtain rfl : p = packageA := by simpa [sampleActions] using hp
    exact ⟨by decide, by decide⟩
  have hfetch : sampleStager.fetch = fun _ => emptyRepository.fetch := rfl
  have hlayout : sampleStager.layout = .resolve ⟨"/"⟩ _ := rfl
  have hmerge := Stager.shared_eq_merge hlayout hseparate hfetch hinstall hslash plain_archived
    (get?_root _) hcompleted.reserved hcompleted.applied
  exact ⟨r, m, os, w', hcompleted, hos.trans hcounts, hmerge.1⟩

end Staging

end GemStaging
