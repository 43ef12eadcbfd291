import GemStaging.Manifest.Config
import GemStaging.Proofs.Disk.Approaching
import GemStaging.Proofs.Staging.Steps

/-!
Loading one manifest along two ways. Where the manifest stands decides its base directory
(`Config.load_apply`), and with it all that a configuration comes to: however the manifest was named
and from wherever, loading it fails alike or comes to the same places, packages and plan
(`Config.load_by_entry`). Where the manifest is a link, opening it takes more links than finding it
does: only there, at the limit of the system, can one of two ways be refused.
-/

namespace GemStaging

open Effect Disk GemStaging.Path

variable {here here' loc dir : Location} {p q : Path} {d : Disk} {left : Nat} {last : String}

def Disk.textAt (d : Disk) (loc : Location) : Except OsError String :=
  match d.file? loc with
  | none => .error .isDirectory
  | some (content, mode) =>
    if !mode.sound then .error .inputOutput
    else match Text.decode? content with
      | some text => .ok text
      | none => .error .notText

theorem Access.readText_apply (p : Path) (here : Location) (d : Disk) :
    Access.readText p here d = (d.locate here p >>= d.textAt, d) := by
  simp only [readText, bind_apply, Access.locate, get_apply]
  cases d.locate here p with
  | error e => rfl
  | ok loc =>
    simp only [bind, Except.bind, textAt]
    cases d.file? loc with
    | none => rfl
    | some file =>
      simp only
      split
      · rfl
      · cases Text.decode? file.1 <;> rfl

namespace Config

variable {path? path?' : Option Path} {m m' : Machine} {c c' : Config}
variable {overrides : List (String × String)}

/-- The path of the manifest: the one that is given, or the usual name in the current directory. -/
def manifestPath (here : Location) (path? : Option Path) : Path :=
  path?.getD (pathOf here / "gemstage.yaml")

/-- The plan of a deploy cycle, if the manifest has a section for it. -/
def plan? (c : Config) : Option Deploy.Plan :=
  c.deploy.toOption.map (Deploy.Plan.resolve c.baseDir)

/-- Two configurations come to the same, whatever their manifests are called. -/
structure Matches (c c' : Config) : Prop where
  baseDir : c.baseDir = c'.baseDir
  layout : c.layout = c'.layout
  resolve : ∀ p, c.resolve p = c'.resolve p
  localRepository : ∀ home, c.localRepository home = c'.localRepository home
  packages : c.packages = c'.packages
  plan : c.plan? = c'.plan?

theorem matches_withPath (c : Config) (p : Path) : Matches c { c with path := p } := by
  refine ⟨rfl, rfl, fun _ => rfl, fun _ => rfl, rfl, ?_⟩
  rw [plan?, plan?, deploy, deploy]
  cases c.manifest.deploy <;> rfl

inductive LoadedAlike : Except Fault Config → Except Fault Config → Prop where
  | ok {c c' : Config} : Matches c c' → LoadedAlike (.ok c) (.ok c')
  | error {f f' : Fault} : f.code = f'.code → LoadedAlike (.error f) (.error f')

/-- The configuration of a manifest, from what its file reads as and where it stands. -/
def ofRead (path baseDir : Path) (overrides : List (String × String))
    (read : Except OsError String) : Except Fault Config := do
  let text ← read.mapError fun e => .manifestUnreadable path.text e.message
  let manifest ← Manifest.ofText path.text text
  let properties ← Properties.resolve manifest.properties overrides
  return { path, baseDir, manifest, properties }

theorem ofText_cases (text : String) :
    (∃ manifest, ∀ source, Manifest.ofText source text = .ok manifest) ∨
      ∃ fault : String → Fault, (∀ source source', (fault source).code = (fault source').code) ∧
        ∀ source, Manifest.ofText source text = .error (fault source) := by
  unfold Manifest.ofText
  cases Yaml.decode Manifest.reader text with
  | error e => exact .inr ⟨(.manifestMalformed · e.message), fun _ _ => rfl, fun _ => rfl⟩
  | ok manifest =>
    cases hvalid : manifest.validate with
    | error f => exact .inr ⟨fun _ => f, fun _ _ => rfl, fun _ => by simp only [hvalid]; rfl⟩
    | ok x => exact .inl ⟨manifest, fun _ => by simp only [hvalid]; rfl⟩

/-- The path of a manifest is used for the texts of faults only. -/
theorem ofRead_alike (baseDir : Path) (read : Except OsError String) :
    LoadedAlike (ofRead p baseDir overrides read) (ofRead q baseDir overrides read) := by
  cases read with
  | error e => exact .error rfl
  | ok text =>
    have hread (path : Path) : ofRead path baseDir overrides (.ok text) =
        Manifest.ofText path.text text >>= fun manifest =>
          Properties.resolve manifest.properties overrides >>= fun properties =>
            .ok { path, baseDir, manifest, properties } := rfl
    rw [hread, hread]
    rcases ofText_cases text with ⟨manifest, hsame⟩ | ⟨fault, hkind, hfails⟩
    · rw [hsame, hsame]
      change LoadedAlike (Properties.resolve manifest.properties overrides >>= _)
        (Properties.resolve manifest.properties overrides >>= _)
      cases hproperties : Properties.resolve manifest.properties overrides with
      | error f => exact .error rfl
      | ok properties => exact .ok (matches_withPath _ q)
    · rw [hfails, hfails]
      exact .error (hkind _ _)

theorem baseDirOf_apply (hnamed : d.DirsNamed) (hhere : d.get? here = some .directory)
    (hway : Designates d here p left dir last) (hp : Walkable p) :
    baseDirOf p here d = (.ok (pathOf dir), d) := by
  obtain ⟨front, hhops, hthreads⟩ := hway.leads
  rw [baseDirOf, bind_apply_ok (place_apply here d), bind_apply_ok (get_apply here d)]
  cases hparent : p.parent? with
  | none =>
    exact absurd (eq_dot_of_parent?_eq_none hparent (by simp [hhops])) hway.notDot
  | some q =>
    simp only
    by_cases htext : q.text.isEmpty
    · obtain rfl := hthreads.eq_of_parent? hhops hway.notDot hparent htext
      rw [if_pos htext]
      rcases locate_pathOf hnamed hhere with h | ⟨e, h⟩
      · rw [h]
        rfl
      · rw [h]
        rfl
    · have hq := hp.of_begins (begins_of_parent? hparent) htext
      have hlook := hthreads.resolve_parent? hhops hway.notDot hparent hq
      rw [if_neg htext, locate_eq_ok_iff.2 hlook]
      rfl

section Loading
variable {baseDir : Path}

theorem load_of_not_file (h : m.disk.isFileAt here (manifestPath here path?) = false) :
    (load path? overrides here m).1 = .error (.manifestMissing (manifestPath here path?).text) := by
  have hfound : (liftM (Access.isFile (manifestPath here path?) : Files Bool) : Work Bool) here m =
      (.ok false, m) := by rw [Files.lift_apply, Access.isFile, h]
  rw [load, bind_apply_ok (place_apply here m)]
  exact congrArg Prod.fst (bind_apply_ok hfound)

theorem not_tooManyLinks_of_load (h : (load path? overrides here m).1 = .ok c) :
    m.disk.locate here (manifestPath here path?) ≠ .error .tooManyLinks := by
  intro hlimit
  have hfile : m.disk.isFileAt here (manifestPath here path?) = false := by
    rw [isFileAt, at?, hlimit]
  rw [load_of_not_file hfile] at h
  cases h

theorem load_of_file (h : m.disk.isFileAt here (manifestPath here path?))
    (hbase : baseDirOf (manifestPath here path?) here m.disk = (.ok baseDir, m.disk)) :
    (load path? overrides here m).1 = ofRead (manifestPath here path?) baseDir overrides
      (m.disk.locate here (manifestPath here path?) >>= m.disk.textAt) := by
  have hfound : (liftM (Access.isFile (manifestPath here path?) : Files Bool) : Work Bool) here m =
      (.ok true, m) := by rw [Files.lift_apply, Access.isFile, h]
  have hread : (liftM ((Access.readText (manifestPath here path?)).mapError fun e =>
      Fault.manifestUnreadable (manifestPath here path?).text e.message : Files String) :
        Work String) here m =
      ((m.disk.locate here (manifestPath here path?) >>= m.disk.textAt).mapError fun e =>
        Fault.manifestUnreadable (manifestPath here path?).text e.message, m) := by
    rw [Files.lift_apply, fst_mapError, snd_mapError, Access.readText_apply]
  have hbase' : (liftM (baseDirOf (manifestPath here path?)) : Work Path) here m =
      (.ok baseDir, m) := by rw [Files.lift_apply, hbase]
  rw [load, bind_apply_ok (place_apply here m), ofRead]
  refine (congrArg Prod.fst (bind_apply_ok hfound)).trans ?_
  refine (fst_bind_of_still hread).trans (bind_congr fun text => ?_)
  refine (fst_bind_of_still (ofExcept_apply _ here m)).trans (bind_congr fun manifest => ?_)
  refine (congrArg Prod.fst (bind_apply_ok hbase')).trans ?_
  exact fst_bind_of_still (ofExcept_apply _ here m)

end Loading

section Ways
variable (hnamed : m.disk.DirsNamed) (hhere : m.disk.get? here = some .directory)
variable (hway : m.disk.locateLink here (manifestPath here path?) = .ok loc)
include hnamed hhere hway

theorem load_apply :
    (load path? overrides here m).1 =
      if m.disk.isFileAt here (manifestPath here path?) then
        ofRead (manifestPath here path?) (pathOf loc.dropLast) overrides
          (m.disk.locate here (manifestPath here path?) >>= m.disk.textAt)
      else .error (.manifestMissing (manifestPath here path?).text) := by
  have hlink := locateLink_eq_ok_iff.1 hway
  split
  · rename_i hfile
    rcases lookAtLink_cases hhere hlink with ⟨hdir, hlook⟩ | ⟨left, dir, last, hdes, rfl, -⟩
    · simp [isFileAt, at?, locate, hlook, hdir] at hfile
    · rw [List.dropLast_concat]
      exact load_of_file hfile (baseDirOf_apply hnamed hhere hdes (resolve_eq_ok_iff.1 hlink).1)
  · rename_i hfile
    exact load_of_not_file (Bool.eq_false_iff.2 hfile)

/-- However a manifest is named and from wherever, it is loaded alike, unless it is a link and
opening it takes too many links along one way and not along the other. Where it is loaded along both
ways, it comes to the same. -/
theorem load_by_entry (hhere' : m.disk.get? here' = some .directory)
    (hway' : m.disk.locateLink here' (manifestPath here' path?') = .ok loc) :
    ((∀ target, m.disk.get? loc = some (.link target) →
        (m.disk.locate here (manifestPath here path?) = .error .tooManyLinks ↔
          m.disk.locate here' (manifestPath here' path?') = .error .tooManyLinks)) →
      LoadedAlike (load path? overrides here m).1 (load path?' overrides here' m).1) ∧
    ∀ c c', (load path? overrides here m).1 = .ok c → (load path?' overrides here' m).1 = .ok c' →
      Matches c c' := by
  have halike (hlimit : ∀ target, m.disk.get? loc = some (.link target) →
      (m.disk.locate here (manifestPath here path?) = .error .tooManyLinks ↔
        m.disk.locate here' (manifestPath here' path?') = .error .tooManyLinks)) :
      LoadedAlike (load path? overrides here m).1 (load path?' overrides here' m).1 := by
    rw [load_apply hnamed hhere hway, load_apply hnamed hhere' hway', isFileAt, isFileAt, at?, at?,
      locate_alike hhere hhere' hway hway' hlimit]
    split
    · exact ofRead_alike _ _
    · exact .error rfl
  refine ⟨halike, fun c c' hc hc' => ?_⟩
  have hmatch := halike fun _ _ =>
    iff_of_false (not_tooManyLinks_of_load hc) (not_tooManyLinks_of_load hc')
  rw [hc, hc'] at hmatch
  cases hmatch with
  | ok h => exact h

end Ways

/-- A manifest, a link to it, a link to the directory of both, and another directory. -/
def linkedManifest : Disk :=
  diskOf [([], "gemstage.yaml", .file (Text.encode "packages: []\n") .data),
    ([], "m.yaml", .link ⟨"gemstage.yaml"⟩), ([], "a", .link ⟨"."⟩), ([], "d", .directory)]

/-- A way to the link over so many links as the system follows. -/
def windingPath : Path := ⟨String.join (List.replicate 40 "a/") ++ "m.yaml"⟩

/-- Two ways lead to one entry, which can be loaded along the one and not along the other. -/
theorem load_winding_sample :
    linkedManifest.locateLink [] (manifestPath [] (some ⟨"m.yaml"⟩)) = .ok ["m.yaml"] ∧
      linkedManifest.locateLink [] (manifestPath [] (some windingPath)) = .ok ["m.yaml"] ∧
      (load (some ⟨"m.yaml"⟩) [] [] { disk := linkedManifest }).1.isOk ∧
      ¬ (load (some windingPath) [] [] { disk := linkedManifest }).1.isOk := by
  decide +kernel

theorem load_by_entry_sample :
    (load (some ⟨"m.yaml"⟩) [] [] { disk := linkedManifest }).1.isOk ∧
      LoadedAlike (load (some ⟨"m.yaml"⟩) [] [] { disk := linkedManifest }).1
        (load (some ⟨".././a/m.yaml"⟩) [] ["d"] { disk := linkedManifest }).1 := by
  have hnamed : linkedManifest.DirsNamed := dirsNamed_diskOf (by decide)
  have hhere : linkedManifest.get? [] = some .directory := get?_root linkedManifest
  have hhere' : linkedManifest.get? ["d"] = some .directory := by decide +kernel
  have hway : linkedManifest.locateLink [] (manifestPath [] (some ⟨"m.yaml"⟩)) =
      .ok ["m.yaml"] := by decide +kernel
  have hway' : linkedManifest.locateLink ["d"] (manifestPath ["d"] (some ⟨".././a/m.yaml"⟩)) =
      .ok ["m.yaml"] := by decide +kernel
  refine ⟨by decide +kernel, ?_⟩
  refine (load_by_entry (m := { disk := linkedManifest }) hnamed hhere hway hhere' hway').1 ?_
  exact fun _ _ => by decide +kernel

end Config

end GemStaging
