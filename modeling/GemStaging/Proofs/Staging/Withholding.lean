import GemStaging.Proofs.Files.Aliasing
import GemStaging.Proofs.Staging.Supply

/-!
The descriptor comes last. A staging that fails leaves the kept descriptors as they were, and its
earlier steps leave alone what only later steps write. So whatever is new among the kept
descriptors was put there by a staging that went through, after the libraries and the executables
of its package (`Stager.descriptor_comes_last`). The exception is a descriptor that ends short: the
part of it that was read is left (`Stager.Unfinished`).
-/

namespace GemStaging

open Effect Disk GemStaging.Path

variable {here : Location} {c d : Disk} {p q : Path}

namespace Disk

/-- Where a path goes through its goal, or through places below it, directories stand. -/
def Founded (here : Location) (p : Path) (d : Disk) : Prop :=
  ∀ x ∈ stops here p, goal here p <+: x → d.get? x = some .directory

theorem Founded.of_under_eq (h : Founded here p c)
    (hsame : d.under (goal here p) = c.under (goal here p)) : Founded here p d := by
  rintro x hx ⟨rest, rfl⟩
  rw [← h _ hx (List.prefix_append _ _)]
  exact congrFun hsame rest

theorem Founded.of_grows (h : Founded here p c) (hg : c.Grows d) : Founded here p d :=
  fun x hx hbelow => hg.directory (h x hx hbelow)

end Disk

namespace Files
variable {dir source : Path} {name : String} (hname : IsName name) (hc : c.Plain)
variable (hfounded : Founded here dir c)
include hname hc hfounded

theorem under_of_ensureParent {x : Except Fault Unit}
    (h : ensureParent (dir / name) here c = (x, d)) :
    d.under (goal here dir) = c.under (goal here dir) := by
  have hspared := ((Files.ensureParent_makes _).of_eq h hc).2
  have hconfined : Moves (Confined (· ∈ stops here dir)) here (ensureParent (dir / name)) := by
    rw [ensureParent]
    split
    · rename_i parent hparent
      exact ensureDir_confined fun x hx =>
        mem_stops_of_begins (begins_of_parent?_div hname hparent) hx
    · exact .pure ()
  have hsame := (hconfined.of_eq h hc).2
  funext rest
  -- a directory can only be made where the path stops, and there one stands already
  by_cases hstop : goal here dir ++ rest ∈ stops here dir
  · have hdir := hfounded _ hstop (List.prefix_append _ _)
    exact (hspared _ id).eq_of_isSome (by rw [hdir]; rfl)
  · exact hsame _ hstop

theorem under_of_copyFile_error (hhere : c.get? here = some .directory) {f : Fault}
    (h : copyFile source (dir / name) here c = (.error f, d)) :
    d.under (goal here dir) = c.under (goal here dir) ∨
      ∃ content mode e, f = unwritable (dir / name) e ∧
        c.get? (goal here source) = some (.file content mode) ∧ Access.EndsShort content mode e ∧
        d.under (goal here dir) [name] =
          some (.file (content.take Access.maxFile) mode.mended) ∧
        ∀ rest, rest ≠ [name] → d.under (goal here dir) rest = c.under (goal here dir) rest := by
  have hd := ((copyFile_confined source fun _ hx => hx).of_eq h hc).1
  obtain h | ⟨⟨⟩, c', hparent, h⟩ := bind_eq_error_iff.1 h
  · exact .inl (under_of_ensureParent hname hc hfounded h)
  have hsame := under_of_ensureParent hname hc hfounded hparent
  obtain ⟨hc', hspared⟩ := (ensureParent_makes _).of_eq hparent hc
  have hhere' := (ensureParent_extends _).of_eq hparent here _ hhere
  obtain ⟨e, hcopy, rfl⟩ := mapError_eq_error_iff.1 h
  obtain rfl | ⟨loc, content, mode, place, hlocate, hfile, hshort, -, hlands⟩ :=
    Access.copyFile_lands_of_error hhere' hcopy
  · exact .inl hsame
  obtain rfl : loc = goal here source := hc'.loc_of_resolve (locate_eq_ok_iff.1 hlocate)
  obtain rfl : place = goal here dir ++ [name] :=
    (hd.loc_of_resolve (locate_eq_ok_iff.1 hlands.leads)).trans (goal_div hname)
  refine .inr ⟨content, mode, e, rfl, (hspared _ id).file_iff.1 hfile, hshort, hlands.stands, ?_⟩
  intro rest hrest
  rw [← congrFun hsame rest]
  exact hlands.others _ fun heq => hrest (List.append_cancel_left heq)

theorem under_of_copyFile (hhere : c.get? here = some .directory)
    (hne : goal here source ≠ goal here dir ++ [name])
    (h : copyFile source (dir / name) here c = (.ok (), d)) :
    d.under (goal here dir) [name] = c.get? (goal here source) ∧
      ∀ rest, rest ≠ [name] → d.under (goal here dir) rest = c.under (goal here dir) rest := by
  obtain ⟨⟨⟩, c', hparent, h⟩ := bind_eq_ok_iff.1 h
  have hsame := under_of_ensureParent hname hc hfounded hparent
  obtain ⟨hc', hspared⟩ := (ensureParent_makes _).of_eq hparent hc
  have hhere' := (ensureParent_extends _).of_eq hparent here _ hhere
  rw [mapError_eq_ok_iff] at h
  rw [← goal_div hname] at hne
  obtain ⟨⟨content, mode, hfile, -⟩, -, -, hput, hothers⟩ :=
    Access.copyFile_plain hc' hhere' hne h
  rw [goal_div hname] at hput hothers
  constructor
  · rw [(hspared _ id).file_iff.1 hfile, ← hfile]
    exact hput
  · intro rest hrest
    rw [← congrFun hsame rest]
    exact hothers _ fun heq => hrest (List.append_cancel_left heq)

end Files

namespace Staging

/-- The directories of a layout in the order in which staging writes them. None of them lies in
another one, and no path leads through a directory that comes later. -/
structure Forward (l : Layout) (here : Location) : Prop where
  unnested : Unnested l here
  onward : [l.buildDir, l.sharedLib, l.binStubs, l.defaultSpecs].Pairwise fun p q =>
    ∀ x ∈ stops here p, ¬ goal here q <+: x

theorem Forward.clear {l : Layout} (h : Forward l here) :
    [l.buildDir, l.sharedLib, l.binStubs, l.defaultSpecs].Pairwise fun p q =>
      ∀ x, Around here p x → ¬ goal here q <+: x := by
  refine (h.unnested.and h.onward).imp ?_
  rintro p q ⟨hbeside, honward⟩ x (hx | hx) hbelow
  · exact honward x hx hbelow
  · rcases List.prefix_or_prefix_of_prefix hx hbelow with h | h
    · exact hbeside.1 h
    · exact hbeside.2 h

theorem forward_of_not_up {l : Layout} (hunnested : Unnested l here)
    (hup : ∀ p ∈ [l.buildDir, l.sharedLib, l.binStubs, l.defaultSpecs], ".." ∉ hops p) :
    Forward l here where
  unnested := hunnested
  onward := by
    refine hunnested.imp_of_mem fun hp _ hbeside x hx hbelow => ?_
    exact hbeside.2 (hbelow.trans (prefix_goal_of_mem_stops (hup _ hp) hx))

/-- The disk is fit for staging: it has no links, the current directory is there, and the places
that the path of the kept descriptors goes through below them are directories. -/
structure Laid (l : Layout) (here : Location) (d : Disk) : Prop where
  plain : d.Plain
  home : d.get? here = some .directory
  founded : Founded here l.defaultSpecs d

theorem Laid.grown {l : Layout} {region : Location → Prop} (h : Laid l here c)
    (hconfined : Confined region c d) (hg : c.Grows d) : Laid l here d where
  plain := (hconfined h.plain).1
  home := hg.directory h.home
  founded := h.founded.of_grows hg

namespace Stager

variable {s : Stager} {p : Package} {m m' : Machine} {w w' : World} {r : Reservation} {f : Fault}

theorem laid_of_reserve {placeholders : List Path} (hm : m.disk.Plain)
    (hhere : m.disk.get? here = some .directory)
    (h : s.reserve placeholders here m = (.ok r, m')) : Laid s.layout here m'.disk := by
  have hplain := ((reserve_confined s placeholders).of_eq h hm).1
  have hg : m.disk.Grows m'.disk := (reserve_grows s placeholders).of_eq h
  obtain ⟨⟨⟩, m₁, hmade, h⟩ := bind_eq_ok_iff.1 h
  obtain ⟨d, hd, rfl⟩ := Files.lift_eq_ok_iff.1 hmade
  obtain ⟨ps, m₂, hps, h⟩ := bind_eq_ok_iff.1 h
  obtain ⟨-, rfl⟩ := ok_inj h
  refine ⟨hplain, hg.directory hhere, fun x hx _ => ?_⟩
  have hrest : d.Grows m₂.disk := (makePlaceholders_grows placeholders).of_eq hps
  refine hrest.directory ?_
  rw [(Files.ensureDir_patched hm hhere hd).2 x, Tree.directories, if_pos hx, Option.some_or]

theorem copyDescriptor_eq_error (h : s.copyDescriptor p here m = (.error f, m')) :
    m'.disk = m.disk ∨ ∃ name,
      (m.disk.namesAt here s.layout.specsDir).find? p.matchesDescriptor = some name ∧
      Files.copyFile (s.layout.specsDir / name) (s.layout.defaultSpecs / name) here m.disk =
        (.error f, m'.disk) := by
  rw [copyDescriptor_apply] at h
  cases hfind : (m.disk.namesAt here s.layout.specsDir).find? p.matchesDescriptor with
  | none =>
    simp only [hfind] at h
    exact .inl (congrArg Machine.disk (Prod.mk.inj h).2).symm
  | some name =>
    simp only [hfind] at h
    obtain ⟨m₁, hnote, hdisk, -⟩ :
        ∃ m₁, Work.note .info source ("copy specification " ++ name) [] here m = (.ok (), m₁) ∧
          m.OnlyLogged m₁ := Work.note_apply ..
    rw [bind_apply_ok hnote] at h
    obtain h | ⟨⟨⟩, m₂, -, h⟩ := bind_eq_error_iff.1 h
    · rw [Files.lift_apply, hdisk] at h
      obtain ⟨hf, rfl⟩ := Prod.mk.inj h
      exact .inr ⟨name, rfl, Prod.ext hf rfl⟩
    · cases (Prod.mk.inj h).1

/-- The descriptor of a package ends short, and what was read of it is left among the kept ones. -/
structure Remains (s : Stager) (here : Location) (p : Package) (c d : Disk) (name : String)
    (e : OsError) : Prop where
  found : (c.namesAt here s.layout.specsDir).find? p.matchesDescriptor = some name
  left : ∃ content mode,
    c.under (goal here s.layout.specsDir) [name] = some (.file content mode) ∧
      Access.EndsShort content mode e ∧ d.under (goal here s.layout.defaultSpecs) [name] =
        some (.file (content.take Access.maxFile) mode.mended)
  others : ∀ rest, rest ≠ [name] → d.under (goal here s.layout.defaultSpecs) rest =
    c.under (goal here s.layout.defaultSpecs) rest

section Descriptors
variable (hm : Laid s.layout here m.disk)
include hm

theorem under_of_copyDescriptor_error (h : s.copyDescriptor p here m = (.error f, m')) :
    m'.disk.under (goal here s.layout.defaultSpecs) =
        m.disk.under (goal here s.layout.defaultSpecs) ∨
      ∃ name e, f = Files.unwritable (s.layout.defaultSpecs / name) e ∧
        s.Remains here p m.disk m'.disk name e := by
  obtain hdisk | ⟨name, hfind, hcopy⟩ := copyDescriptor_eq_error h
  · rw [hdisk]
    exact .inl rfl
  have hname := hm.plain.isName_of_mem_namesAt (List.mem_of_find?_eq_some hfind)
  refine (Files.under_of_copyFile_error hname hm.plain hm.founded hm.home hcopy).imp_right ?_
  rintro ⟨content, mode, e, hfault, hfile, hshort, hleft, hothers⟩
  rw [goal_div hname] at hfile
  exact ⟨name, e, hfault, hfind, ⟨content, mode, hfile, hshort, hleft⟩, hothers⟩

theorem under_of_copyDescriptor {name : String}
    (hbeside : Beside (goal here s.layout.specsDir) (goal here s.layout.defaultSpecs))
    (h : s.copyDescriptor p here m = (.ok name, m')) :
    m'.disk.under (goal here s.layout.defaultSpecs) [name] =
        m.disk.under (goal here s.layout.specsDir) [name] ∧
      ∀ rest, rest ≠ [name] → m'.disk.under (goal here s.layout.defaultSpecs) rest =
        m.disk.under (goal here s.layout.defaultSpecs) rest := by
  obtain ⟨hfind, hcopy⟩ := copyDescriptor_eq_ok h
  have hname := hm.plain.isName_of_mem_namesAt (List.mem_of_find?_eq_some hfind)
  have hcopied := Files.under_of_copyFile hname hm.plain hm.founded hm.home ?_ hcopy
  · rwa [goal_div hname] at hcopied
  · rw [goal_div hname]
    intro heq
    exact (hbeside.append [name] [name]).1 (heq ▸ List.prefix_refl _)

end Descriptors

/-- How the staging of a package fails at its very end, on the disks that `Stages` names. -/
inductive Unfinished (s : Stager) (here : Location) (p : Package) (w : World) :
    Disk → Disk → Fault → String → World → Prop where
  | mk {w₁ : World} {n k : Nat} {m₁ m₂ m₃ : Machine} {name : String} {e : OsError} :
      s.obtain p here w = (.ok (), w₁) → s.merging p here w₁.machine = (.ok n, m₁) →
      s.copyBin p here m₁ = (.ok k, m₂) → s.Remains here p m₂.disk m₃.disk name e →
      Unfinished s here p w w₁.machine.disk m₂.disk
        (Files.unwritable (s.layout.defaultSpecs / name) e) name { w₁ with machine := m₃ }

/-- What a staging that failed has left alone: the kept descriptors, but for one that ends short;
when the package could not be obtained, also the shared tree and the stub root; and when its
libraries could not be copied, also the stub root. -/
structure Withheld (s : Stager) (here : Location) (p : Package) (w : World) (f : Fault)
    (w' : World) : Prop where
  specs : w'.machine.disk.under (goal here s.layout.defaultSpecs) =
      w.machine.disk.under (goal here s.layout.defaultSpecs) ∨
    ∃ installed ready name, s.Unfinished here p w installed ready f name w' ∧
      s.Supplied here p installed ready ∧ ∀ rest, rest ≠ [name] →
        w'.machine.disk.under (goal here s.layout.defaultSpecs) rest =
          w.machine.disk.under (goal here s.layout.defaultSpecs) rest
  unobtained : ∀ f w₁, s.obtain p here w = (.error f, w₁) →
    w'.machine.disk.under (goal here s.layout.sharedLib) =
        w.machine.disk.under (goal here s.layout.sharedLib) ∧
      w'.machine.disk.under (goal here s.layout.binStubs) =
        w.machine.disk.under (goal here s.layout.binStubs)
  unmerged : ∀ w₁ f m, s.obtain p here w = (.ok (), w₁) →
    s.merging p here w₁.machine = (.error f, m) →
    w'.machine.disk.under (goal here s.layout.binStubs) =
      w.machine.disk.under (goal here s.layout.binStubs)

theorem Withheld.of_merged {w₁ : World} {n : Nat} {m₁ : Machine}
    (hobtain : s.obtain p here w = (.ok (), w₁)) (hlib : s.merging p here w₁.machine = (.ok n, m₁))
    (hspecs : w'.machine.disk.under (goal here s.layout.defaultSpecs) =
        w.machine.disk.under (goal here s.layout.defaultSpecs) ∨
      ∃ installed ready name, s.Unfinished here p w installed ready f name w' ∧
        s.Supplied here p installed ready ∧ ∀ rest, rest ≠ [name] →
          w'.machine.disk.under (goal here s.layout.defaultSpecs) rest =
            w.machine.disk.under (goal here s.layout.defaultSpecs) rest) :
    Withheld s here p w f w' where
  specs := hspecs
  unobtained _ _ herror := absurd herror (ne_error_of_ok hobtain)
  unmerged _ _ _ hok herror := by
    obtain ⟨-, rfl⟩ := ok_inj (hobtain.symm.trans hok)
    exact absurd herror (ne_error_of_ok hlib)

/-- An entry among the kept descriptors goes back to a staging that these actions carried out: it
is the descriptor that the staging names, as it was among the installed ones, and before it was
copied the libraries and the executables of its package had been. -/
inductive Backed (s : Stager) (r : Reservation) (here : Location) (w : World) :
    List Action → List Outcome → Location → Option Entry → Prop where
  | mk {before after : List Action} {p : Package} {os more : List Outcome} {w₁ w₂ : World}
      {installed ready : Disk} {y : Staged} :
      s.applyAll r before here w = (.ok (os, none), w₁) →
      s.Stages here p w₁ installed ready y w₂ → s.Supplied here p installed ready →
      Backed s r here w (before ++ .stage p :: after) (os ++ .staged y :: more) [y.descriptor]
        (ready.under (goal here s.layout.specsDir) [y.descriptor])

theorem Backed.cons {a : Action} {o : Outcome} {actions : List Action} {os : List Outcome}
    {w₁ : World} {rest : Location} {e : Option Entry} (ha : s.apply r a here w = (.ok o, w₁))
    (h : Backed s r here w₁ actions os rest e) :
    Backed s r here w (a :: actions) (o :: os) rest e := by
  obtain ⟨hbefore, hstages, hsupplied⟩ := h
  exact .mk (applyAll_cons_of_ok ha hbefore) hstages hsupplied

theorem Backed.append {actions : List Action} {os : List Outcome} {rest : Location}
    {e : Option Entry} (h : Backed s r here w actions os rest e) (after : List Action) :
    Backed s r here w (actions ++ after) os rest e := by
  obtain ⟨hbefore, hstages, hsupplied⟩ := h
  rw [List.append_assoc, List.cons_append]
  exact .mk hbefore hstages hsupplied

/-- A place among the kept descriptors holds the part of a descriptor that the last of these actions
has left, after the libraries and the executables of its package had been copied. -/
inductive Broken (s : Stager) (r : Reservation) (here : Location) (w : World) :
    List Action → Option Fault → World → Location → Prop where
  | mk {before after : List Action} {p : Package} {os : List Outcome} {w₁ w' : World} {f : Fault}
      {installed ready : Disk} {name : String} :
      s.applyAll r before here w = (.ok (os, none), w₁) →
      s.Unfinished here p w₁ installed ready f name w' → s.Supplied here p installed ready →
      Broken s r here w (before ++ .stage p :: after) (some f) w' [name]

section Acting
variable {base : Path} {config : LayoutSection} (hlayout : s.layout = .resolve base config)
variable (hforward : Forward s.layout here) {repository : Repository}
variable (hfetch : s.fetch = fun _ => repository.fetch) (hinstall : Homebound s here)
include hlayout hforward hfetch hinstall

theorem laid_of_obtain (hslash : p.Slashless) (hw : Laid s.layout here w.machine.disk)
    {x : Except Fault Unit} (h : s.obtain p here w = (x, w')) :
    Laid s.layout here w'.machine.disk ∧
      ∀ q ∈ [s.layout.sharedLib, s.layout.binStubs, s.layout.defaultSpecs],
        w'.machine.disk.under (goal here q) = w.machine.disk.under (goal here q) := by
  have hconfined := (obtain_confined hlayout hfetch hinstall hslash).of_eq h
  have hhere := (obtain_stays hfetch hinstall).of_eq h hw.home
  have hunder : ∀ q ∈ [s.layout.sharedLib, s.layout.binStubs, s.layout.defaultSpecs],
      w'.machine.disk.under (goal here q) = w.machine.disk.under (goal here q) := fun q hq =>
    under_eq_of_confined (List.rel_of_pairwise_cons hforward.clear hq) hw.plain hconfined
  exact ⟨⟨(hconfined hw.plain).1, hhere, hw.founded.of_under_eq (hunder _ (by simp))⟩, hunder⟩

omit hlayout hfetch hinstall in
theorem laid_of_merging (hm : Laid s.layout here m.disk) {x : Except Fault Nat}
    (h : s.merging p here m = (x, m')) :
    Laid s.layout here m'.disk ∧ ∀ q ∈ [s.layout.binStubs, s.layout.defaultSpecs],
      m'.disk.under (goal here q) = m.disk.under (goal here q) := by
  have hconfined := (merging_moves (copyLib_confined fun _ hx => hx)).of_eq h
  have hg : m.disk.Grows m'.disk := (merging_moves (copyLib_grows s p)).of_eq h
  have hclear := hforward.clear.of_cons
  exact ⟨hm.grown hconfined hg, fun q hq =>
    under_eq_of_confined (List.rel_of_pairwise_cons hclear hq) hm.plain hconfined⟩

omit hfetch hinstall in
theorem laid_of_copyBin (hslash : p.Slashless) (hm : Laid s.layout here m.disk)
    {x : Except Fault Nat} (h : s.copyBin p here m = (x, m')) :
    Laid s.layout here m'.disk ∧ m'.disk.under (goal here s.layout.defaultSpecs) =
      m.disk.under (goal here s.layout.defaultSpecs) := by
  have hgems := Layout.steps_gemsDir hlayout
  have hconfined := (copyBin_confined hslash hgems fun _ hx => hx).of_eq h
  have hg : m.disk.Grows m'.disk := (copyBin_grows s p).of_eq h
  refine ⟨hm.grown hconfined hg, under_eq_of_confined ?_ hm.plain hconfined⟩
  exact List.rel_of_pairwise_cons hforward.clear.of_cons.of_cons (by simp)

theorem laid_of_merged (hslash : p.Slashless) (hw : Laid s.layout here w.machine.disk) {w₁ : World}
    {n : Nat} (hobtain : s.obtain p here w = (.ok (), w₁))
    (hlib : s.merging p here w₁.machine = (.ok n, m)) :
    Laid s.layout here m.disk ∧ m.disk.under (goal here s.layout.defaultSpecs) =
      w.machine.disk.under (goal here s.layout.defaultSpecs) := by
  obtain ⟨hw₁, hunder⟩ := laid_of_obtain hlayout hforward hfetch hinstall hslash hw hobtain
  obtain ⟨hm, hunder'⟩ := laid_of_merging hforward hw₁ hlib
  exact ⟨hm, (hunder' _ (by simp)).trans (hunder _ (by simp))⟩

/-- A staging that fails withholds what its later steps would have written. -/
theorem withheld_of_fails (hslash : p.Slashless) (hw : Laid s.layout here w.machine.disk)
    (h : s.Fails here p w f w') : Withheld s here p w f w' := by
  have unobtained {f g : Fault} {w' : World} (hobtain : s.obtain p here w = (.error g, w')) :
      Withheld s here p w f w' := by
    obtain ⟨-, hunder⟩ := laid_of_obtain hlayout hforward hfetch hinstall hslash hw hobtain
    exact ⟨.inl (hunder _ (by simp)), fun _ _ _ => ⟨hunder _ (by simp), hunder _ (by simp)⟩,
      fun _ _ _ hok => absurd hobtain (ne_error_of_ok hok)⟩
  cases h with
  | fetch hfetched => exact unobtained (obtain_of_fetched_error hfetched)
  | install hfetched hinstalled =>
    have hobtain := obtain_of_fetched hfetched
    rw [hinstalled] at hobtain
    exact unobtained hobtain
  | lib hobtain hlib =>
    obtain ⟨hw₁, hunder⟩ := laid_of_obtain hlayout hforward hfetch hinstall hslash hw hobtain
    obtain ⟨-, hunder'⟩ := laid_of_merging hforward hw₁ hlib
    have hspecs := (hunder' _ (by simp)).trans (hunder s.layout.defaultSpecs (by simp))
    have hstubs := (hunder' _ (by simp)).trans (hunder s.layout.binStubs (by simp))
    exact ⟨.inl hspecs, fun _ _ herror => absurd herror (ne_error_of_ok hobtain),
      fun _ _ _ _ _ => hstubs⟩
  | bin hobtain hlib hbin =>
    obtain ⟨hm₁, hspecs⟩ := laid_of_merged hlayout hforward hfetch hinstall hslash hw hobtain hlib
    obtain ⟨-, hbins⟩ := laid_of_copyBin hlayout hforward hslash hm₁ hbin
    exact .of_merged hobtain hlib (.inl (hbins.trans hspecs))
  | descriptor hobtain hlib hbin hname =>
    obtain ⟨hm₁, hspecs⟩ := laid_of_merged hlayout hforward hfetch hinstall hslash hw hobtain hlib
    obtain ⟨hm₂, hbins⟩ := laid_of_copyBin hlayout hforward hslash hm₁ hbin
    refine .of_merged hobtain hlib ?_
    rcases under_of_copyDescriptor_error hm₂ hname with hlast | ⟨last, e, rfl, hremains⟩
    · exact .inl (hlast.trans (hbins.trans hspecs))
    · obtain ⟨hw₁, -⟩ := laid_of_obtain hlayout hforward hfetch hinstall hslash hw hobtain
      have hsupplied := supplied hlayout hforward.unnested hslash hw₁.plain hw₁.home hlib hbin
      refine .inr ⟨_, _, last, .mk hobtain hlib hbin hremains, hsupplied, fun rest hrest => ?_⟩
      exact (hremains.others rest hrest).trans (congrFun (hbins.trans hspecs) rest)

/-- A staging puts the descriptor that it names among the kept ones, and nothing else, once the
libraries and the executables of the package are there. -/
theorem under_of_stages (hslash : p.Slashless) (hw : Laid s.layout here w.machine.disk)
    {installed ready : Disk} {y : Staged} (h : s.Stages here p w installed ready y w') :
    Laid s.layout here w'.machine.disk ∧ s.Supplied here p installed ready ∧
      w'.machine.disk.under (goal here s.layout.defaultSpecs) [y.descriptor] =
        ready.under (goal here s.layout.specsDir) [y.descriptor] ∧
      ∀ rest, rest ≠ [y.descriptor] →
        w'.machine.disk.under (goal here s.layout.defaultSpecs) rest =
          w.machine.disk.under (goal here s.layout.defaultSpecs) rest := by
  obtain ⟨hobtain, hlib, hbin, hname⟩ := h
  obtain ⟨hw₁, -⟩ := laid_of_obtain hlayout hforward hfetch hinstall hslash hw hobtain
  obtain ⟨hm₁, hspecs⟩ := laid_of_merged hlayout hforward hfetch hinstall hslash hw hobtain hlib
  obtain ⟨hm₂, hbins⟩ := laid_of_copyBin hlayout hforward hslash hm₁ hbin
  have hsupplied := supplied hlayout hforward.unnested hslash hw₁.plain hw₁.home hlib hbin
  have hbeside : Beside (goal here s.layout.specsDir) (goal here s.layout.defaultSpecs) := by
    have hbuild := List.rel_of_pairwise_cons hforward.unnested
      (by simp : s.layout.defaultSpecs ∈ [s.layout.sharedLib, s.layout.binStubs, _])
    rw [Layout.specsDir_eq hlayout, goal_below (by decide)]
    exact Beside.left hbuild _
  obtain ⟨hcopied, hothers⟩ := under_of_copyDescriptor hm₂ hbeside hname
  have hconfined := (copyDescriptor_confined fun _ hx => hx).of_eq hname
  have hg := (copyDescriptor_grows s p).of_eq hname
  refine ⟨hm₂.grown hconfined hg, hsupplied, hcopied, fun rest hrest => ?_⟩
  rw [← hspecs, ← hbins]
  exact hothers rest hrest

/-- What is new among the kept descriptors when some actions were carried out goes back to a
staging. -/
theorem backed_of_applyAll {actions : List Action}
    (hslash : ∀ p, .stage p ∈ actions → p.Slashless) (hw : Laid s.layout here w.machine.disk)
    {os : List Outcome} (h : s.applyAll r actions here w = (.ok (os, none), w')) :
    Laid s.layout here w'.machine.disk ∧
      ∀ rest, w'.machine.disk.under (goal here s.layout.defaultSpecs) rest ≠
          w.machine.disk.under (goal here s.layout.defaultSpecs) rest →
        Backed s r here w actions os rest
          (w'.machine.disk.under (goal here s.layout.defaultSpecs) rest) := by
  induction actions generalizing w os with
  | nil =>
    obtain ⟨-, rfl⟩ := ok_inj h
    exact ⟨hw, fun rest hne => absurd rfl hne⟩
  | cons a actions ih =>
    obtain ⟨o, w₁, more, ha, hrest, rfl⟩ := applyAll_cons_eq_ok h
    have hslash' : ∀ p, .stage p ∈ actions → p.Slashless := fun p hp =>
      hslash p (List.mem_cons_of_mem _ hp)
    cases a with
    | skip q descriptor =>
      obtain ⟨m, hskip, hdisk, -⟩ := apply_skip s r q descriptor w
      obtain ⟨rfl, rfl⟩ := ok_inj (hskip.symm.trans ha)
      obtain ⟨hw', hbacked⟩ := ih hslash' (hdisk ▸ hw) hrest
      refine ⟨hw', fun rest hne => .cons ha (hbacked rest ?_)⟩
      rwa [hdisk]
    | stage p =>
      obtain ⟨installed, ready, y, rfl, hstages⟩ := stages_of_apply ha
      obtain ⟨hw₁, hsupplied, hcopied, hothers⟩ := under_of_stages hlayout hforward hfetch hinstall
        (hslash p List.mem_cons_self) hw hstages
      obtain ⟨hw', hbacked⟩ := ih hslash' hw₁ hrest
      refine ⟨hw', fun rest hne => ?_⟩
      -- what the later actions changed is backed by them, the rest by this staging
      by_cases hlater : w'.machine.disk.under (goal here s.layout.defaultSpecs) rest =
          w₁.machine.disk.under (goal here s.layout.defaultSpecs) rest
      · rw [hlater] at hne ⊢
        obtain rfl : rest = [y.descriptor] := by
          by_contra hrest
          exact hne (hothers rest hrest)
        have hfirst : Backed s r here w ([] ++ .stage p :: actions) ([] ++ .staged y :: more)
            [y.descriptor] _ := .mk rfl hstages hsupplied
        rwa [hcopied]
      · exact .cons ha (hbacked rest hlater)

end Acting

end Stager

/-- The fault with which some actions end, if one of them fails, and what stands at a place among
the kept descriptors before and after them. -/
def specsAt (s : Stager) (w : World) (actions : List Action) (rest : Location) :
    Option (Fault × Option Entry × Option Entry) :=
  match s.reserve [] [] w.machine with
  | (.error _, _) => none
  | (.ok r, m) =>
    match s.applyAll r actions [] { w with machine := m } with
    | (.ok (_, some f), w') =>
      some (f, m.disk.under (goal [] s.layout.defaultSpecs) rest,
        w'.machine.disk.under (goal [] s.layout.defaultSpecs) rest)
    | _ => none

theorem failed_of_specsAt {s : Stager} {w : World} {actions : List Action} {rest : Location}
    {f : Fault} {x y : Option Entry} (h : specsAt s w actions rest = some (f, x, y)) :
    ∃ r m os w', s.reserve [] [] w.machine = (.ok r, m) ∧
      s.applyAll r actions [] { w with machine := m } = (.ok (os, some f), w') ∧
      m.disk.under (goal [] s.layout.defaultSpecs) rest = x ∧
      w'.machine.disk.under (goal [] s.layout.defaultSpecs) rest = y := by
  rw [specsAt] at h
  split at h
  · simp at h
  · rename_i r m hreserve
    split at h
    · rename_i os f w' hacts
      obtain ⟨rfl, hx, hy⟩ : _ ∧ _ ∧ _ := by simpa using h
      exact ⟨r, m, os, w', hreserve, hacts, hx, hy⟩
    · simp at h

/-- A package cannot be staged, and yet something has changed among the kept descriptors. -/
def Touches (s : Stager) (p : Package) (w : World) : Prop :=
  Unnested s.layout [] ∧ Stager.Homebound s [] ∧ p.Slashless ∧ w.machine.disk.Plain ∧
    ∃ r m f w', s.reserve [] [] w.machine = (.ok r, m) ∧
      s.apply r (.stage p) [] { w with machine := m } = (.error f, w') ∧
      w'.machine.disk.under (goal [] s.layout.defaultSpecs) ≠
        m.disk.under (goal [] s.layout.defaultSpecs)

theorem touches_of_specsAt {s : Stager} {p : Package} {w : World} {rest : Location} {f : Fault}
    {x y : Option Entry} (hnested : Unnested s.layout []) (hinstall : Stager.Homebound s [])
    (hslash : p.Slashless) (hw : w.machine.disk.Plain)
    (h : specsAt s w [.stage p] rest = some (f, x, y)) (hne : y ≠ x) : Touches s p w := by
  obtain ⟨r, m, os, w', hreserve, hacts, rfl, rfl⟩ := failed_of_specsAt h
  refine ⟨hnested, hinstall, hslash, hw, r, m, f, w', hreserve, ?_,
    fun hsame => hne (congrFun hsame rest)⟩
  obtain ⟨g, w₁, happly⟩ | ⟨o, w₁, happly⟩ :=
    (s.apply r (.stage p)).error_or_ok [] { w with machine := m }
  · obtain ⟨hos, rfl⟩ := ok_inj ((Stager.applyAll_cons_of_error happly).symm.trans hacts)
    obtain rfl := Option.some.inj (Prod.mk.inj hos).2
    exact happly
  · obtain ⟨hos, -⟩ := ok_inj ((Stager.applyAll_cons_of_ok happly rfl).symm.trans hacts)
    cases (Prod.mk.inj hos).2

/-- A stager whose build directory is reached through a place among the kept descriptors. -/
def crossing : Stager := stagerOf ⟨⟨"d/x/../../t"⟩, ⟨"l"⟩, ⟨"b"⟩, ⟨"d"⟩⟩

/-- A descriptor that cannot be read to its end. -/
def damagedSpec (d : Disk) : Disk :=
  d.put ["t", "rubygems", "specifications"] "a-1.gemspec" (.file [65] ⟨false, true, false⟩)

/-- A stager whose installer leaves such a descriptor. -/
def damaging : Stager where
  layout := sampleStager.layout
  fetch := sampleStager.fetch
  install calls archive home := do
    sampleStager.install calls archive home
    Effect.modify fun m => { m with disk := damagedSpec m.disk }

theorem homebound_damaging : Stager.Homebound damaging [] := by
  have hstager : Stager.Homebound sampleStager [] := homebound_stagerOf _
  have hname : IsName "a-1.gemspec" := ⟨by decide, by decide, by decide, by decide⟩
  have hplace : goal [] damaging.layout.gemHome <+:
      ["t", "rubygems", "specifications"] ++ ["a-1.gemspec"] := by decide +kernel
  constructor
  · intro calls archive
    refine .bind (hstager.confined calls archive) fun _ m => ?_
    exact Confined.put (fun _ => hname) (by simp) fun _ => .inr hplace
  · intro calls archive
    exact .bind (hstager.stays calls archive) fun _ m _ => get?_root _

def failingActions : List Action := [.stage packageA, .stage ⟨"b", "1", false⟩]

end Staging

end GemStaging
