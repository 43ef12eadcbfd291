import GemStaging.Proofs.Disk.Plain
import GemStaging.Proofs.Files.Copy
import GemStaging.Proofs.Staging.Growth
import GemStaging.Proofs.Staging.Steps

/-!
What staging a package publishes: a descriptor of it among the kept ones, and in the shared tree
everything that its libraries held right after it was installed (`Stager.published_of_publish`).
What is published stays published as long as nobody else removes it (`Published.keeps`).
-/

namespace GemStaging.Staging

open Effect Disk GemStaging.Path

variable {here : Location}

/-- A package is published: a descriptor of it is kept, and whatever its libraries held on the disk
`installed` is in the shared tree. -/
structure Published (l : Layout) (here : Location) (p : Package) (installed d : Disk) : Prop where
  descriptor : ∃ name, p.matchesDescriptor name ∧ d.existsAt here (l.defaultSpecs / name)
  libraries : p.specOnly = false → ∀ dir entry, IsName dir → IsName entry →
    dir ∈ installed.namesAt here l.gemsDir → p.matchesUnpacked dir →
    entry ∈ installed.namesAt here (l.gemsDir / dir / "lib") → d.existsAt here (l.sharedLib / entry)

/-- On the way from one disk to another nothing leaves the shared tree or the kept descriptors,
and the current directory stays. -/
def Keeps (l : Layout) (here : Location) (c d : Disk) : Prop :=
  c.get? here = some .directory → d.get? here = some .directory ∧
    ∀ name : String, (c.existsAt here (l.sharedLib / name) → d.existsAt here (l.sharedLib / name)) ∧
      (c.existsAt here (l.defaultSpecs / name) → d.existsAt here (l.defaultSpecs / name))

section Keeping
variable {l : Layout} {c d : Disk}

instance : IsPreorder Disk (Keeps l here) where
  refl _ h := ⟨h, fun _ => ⟨id, id⟩⟩
  trans _ _ _ h h' hhere := by
    obtain ⟨hhere, hkept⟩ := h hhere
    obtain ⟨hhere, hkept'⟩ := h' hhere
    exact ⟨hhere, fun name => ⟨(hkept' name).1 ∘ (hkept name).1, (hkept' name).2 ∘ (hkept name).2⟩⟩

theorem Keeps.of_grows (hg : c.Grows d) : Keeps l here c d := fun hhere =>
  ⟨hg.directory hhere, fun _ => ⟨hg.existsAt hhere, hg.existsAt hhere⟩⟩

theorem Published.keeps {p : Package} {installed : Disk} (h : Published l here p installed c)
    (hhere : c.get? here = some .directory) (hk : Keeps l here c d) :
    Published l here p installed d where
  descriptor := by
    obtain ⟨name, hmatch, hthere⟩ := h.descriptor
    exact ⟨name, hmatch, ((hk hhere).2 name).2 hthere⟩
  libraries hspec dir entry hdir hentry hmem hmatch hlib :=
    ((hk hhere).2 entry).1 (h.libraries hspec dir entry hdir hentry hmem hmatch hlib)

end Keeping

namespace Stager

section Copying
variable {dir : Path} {c d : Disk} {n : Nat}

theorem existsAt_of_copyAllInto {base : Path} {names : List String}
    (hhere : c.get? here = some .directory)
    (h : copyAllInto dir (names.map (base / ·)) here c = (.ok n, d)) {entry : String}
    (hentry : IsName entry) (hmem : entry ∈ names) : d.existsAt here (dir / entry) := by
  induction names generalizing c n with
  | nil => simp at hmem
  | cons name rest ih =>
    obtain ⟨q, c₁, hcopy, h⟩ := bind_eq_ok_iff.1 h
    obtain ⟨more, c₂, hmore, h⟩ := bind_eq_ok_iff.1 h
    obtain ⟨-, rfl⟩ := Prod.mk.inj h
    have hhere₁ := ((Files.copyInto_grows _ _).of_eq hcopy).directory hhere
    rcases List.mem_cons.1 hmem with rfl | hmem
    · obtain ⟨name, n, hname, -, hcopy⟩ := Files.copyInto_eq_ok hcopy
      rw [fileName?_div hentry] at hname
      obtain rfl := Option.some.inj hname
      have hsteps : (base / entry).steps ≠ [] := by simp [steps_div hentry]
      have hg : c₁.Grows c₂ := (copyAllInto_grows _ _).of_eq hmore
      have hthere := Files.existsAt_of_copyTo hhere hsteps (not_isEmpty_div hentry) hcopy
      exact hg.existsAt hhere₁ hthere
    · exact ih hhere₁ hmore hmem

/-- The libraries of the first package are copied, as they are listed then, and afterwards those of
the others. -/
theorem copyLibs_cons_eq_ok {base : Path} {rest : List Path}
    (h : copyLibs dir (base :: rest) here c = (.ok n, d)) :
    ∃ k more c', copyAllInto dir ((c.namesAt here (base / "lib")).map (base / "lib" / ·)) here c =
        (.ok k, c') ∧
      copyLibs dir rest here c' = (.ok more, d) ∧ n = k + more := by
  obtain ⟨entries, c₁, hlist, h⟩ := bind_eq_ok_iff.1 h
  rw [Files.listDir_apply] at hlist
  obtain ⟨rfl, rfl⟩ := ok_inj hlist
  obtain ⟨k, c₂, hcopy, h⟩ := bind_eq_ok_iff.1 h
  obtain ⟨more, c₃, hmore, h⟩ := bind_eq_ok_iff.1 h
  obtain ⟨rfl, rfl⟩ := ok_inj h
  exact ⟨k, more, c₂, hcopy, hmore, rfl⟩

theorem existsAt_of_copyLibs {unpacked : List Path} (hhere : c.get? here = some .directory)
    (h : copyLibs dir unpacked here c = (.ok n, d)) {base : Path} (hbase : base ∈ unpacked)
    {entry : String} (hentry : IsName entry) (hmem : entry ∈ c.namesAt here (base / "lib")) :
    d.existsAt here (dir / entry) := by
  induction unpacked generalizing c n with
  | nil => simp at hbase
  | cons p rest ih =>
    obtain ⟨k, more, c₂, hcopy, hmore, -⟩ := copyLibs_cons_eq_ok h
    have hg : c.Grows c₂ := (copyAllInto_grows _ _).of_eq hcopy
    have hg' : c₂.Grows d := (copyLibs_grows _ _).of_eq hmore
    rcases List.mem_cons.1 hbase with rfl | hbase
    · exact hg'.existsAt (hg.directory hhere) (existsAt_of_copyAllInto hhere hcopy hentry hmem)
    · exact ih (hg.directory hhere) hmore hbase (hg.mem_namesAt hmem)

end Copying

variable {s : Stager} {p : Package}

def unpackedAt (s : Stager) (here : Location) (p : Package) (d : Disk) : List Path :=
  ((d.namesAt here s.layout.gemsDir).map (s.layout.gemsDir / ·)).filter
    fun dir => dir.fileName?.any p.matchesUnpacked

def unpackedNames (s : Stager) (here : Location) (p : Package) (d : Disk) : List String :=
  (d.namesAt here s.layout.gemsDir).filter p.matchesUnpacked

theorem unpackedNames_ascending (s : Stager) (here : Location) (p : Package) (d : Disk) :
    (s.unpackedNames here p d).Pairwise (· < ·) :=
  (namesAt_ascending d here _).filter _

theorem unpackedAt_eq (hd : d.Plain) :
    s.unpackedAt here p d = (s.unpackedNames here p d).map (s.layout.gemsDir / ·) := by
  rw [unpackedAt, unpackedNames, List.filter_map]
  congr 1
  refine List.filter_congr fun name hname => ?_
  simp [fileName?_div (hd.isName_of_mem_namesAt hname)]

theorem mem_unpackedAt {d : Disk} {dir : String} (hdir : IsName dir)
    (hmem : dir ∈ d.namesAt here s.layout.gemsDir) (hmatch : p.matchesUnpacked dir) :
    s.layout.gemsDir / dir ∈ s.unpackedAt here p d := by
  refine List.mem_filter.2 ⟨List.mem_map_of_mem hmem, ?_⟩
  simpa [fileName?_div hdir] using hmatch

theorem copyLib_apply (s : Stager) (p : Package) (d : Disk) :
    s.copyLib p here d = copyLibs s.layout.sharedLib (s.unpackedAt here p d) here d := by
  rw [copyLib, bind_apply_ok (Files.listDir_apply _ d)]
  rfl

theorem published_of_publish {x : Staged} {m m' : Machine}
    (hhere : m.disk.get? here = some .directory) (h : s.publish p here m = (.ok x, m')) :
    Published s.layout here p m.disk m'.disk := by
  obtain ⟨m₁, m₂, hlib, hbin, hdescriptor, -⟩ := publish_eq_ok h
  have hg₁ : m.disk.Grows m₁.disk := by
    split at hlib
    · rw [hlib.2]
      exact .refl _
    · exact (copyLib_grows s p).of_eq hlib
  have hg₂ : m₁.disk.Grows m₂.disk := (copyBin_grows s p).of_eq hbin
  have hg₃ : m₂.disk.Grows m'.disk := (copyDescriptor_grows s p).of_eq hdescriptor
  constructor
  · obtain ⟨hfind, hcopy⟩ := copyDescriptor_eq_ok hdescriptor
    exact ⟨x.descriptor, List.find?_some hfind,
      Files.existsAt_of_copyFile ((hg₁.trans hg₂).directory hhere) hcopy⟩
  · intro hspec dir entry hdir hentry hmem hmatch hentries
    rw [if_neg (by simp [hspec]), copyLib_apply] at hlib
    exact (hg₂.trans hg₃).existsAt (hg₁.directory hhere)
      (existsAt_of_copyLibs hhere hlib (mem_unpackedAt hdir hmem hmatch) hentry hentries)

end Stager

end GemStaging.Staging
