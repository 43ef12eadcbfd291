import GemStaging.Proofs.Files.Making
import Mathlib.Algebra.GroupWithZero.Nat

/-!
One step of a tree copy, on a disk without links: what stands where the walk has come to is a
directory, which is listed, made and filled (`Files.copyBelow_directory`), or a file, which is
copied (`Files.copyBelow_file`).
-/

namespace GemStaging

open Effect Disk GemStaging.Path

variable {here loc : Location} {p source target : Path} {names : List String} {c d : Disk}

namespace Disk

theorem resolve_div {purpose : Purpose} {name : String} (hd : d.Plain) (hname : IsName name)
    (hp : Fits (p / name)) (hdirs : ∀ x ∈ stops here p, d.get? x = some .directory)
    (hne : d.get? (goal here p ++ [name]) ≠ some .directory) :
    d.resolve here purpose (p / name) =
      if (d.get? (goal here p ++ [name])).isSome then .ok (.entry (goal here p ++ [name]))
      else .ok (.free (goal here p) name) := by
  have hslash : endsInSlash (p / name) = false := endsInSlash_div hname
  rw [hd.resolve_last hp (not_isEmpty_div hname) (hops_div hname) hname.ne_dot hname.ne_up
    (by rwa [origin_div hname]) (fun _ => hslash), origin_div hname]
  simp only [← goal.eq_def]
  cases he : d.get? (goal here p ++ [name]) with
  | none => rfl
  | some e =>
    cases e with
    | file => simp [hslash]
    | directory => exact absurd he hne
    | link target => exact absurd he (hd.linkless _ _)

theorem directory_of_mem_stops_below (hnames : ∀ name ∈ names, IsName name)
    (hdirs : ∀ x ∈ stops here p, d.get? x = some .directory)
    (hdir : d.get? (goal here p ++ names) = some .directory) :
    ∀ x ∈ stops here (p.below names), d.get? x = some .directory := by
  intro x hx
  rcases mem_stops_below hnames hx with hx | ⟨-, hbelow⟩
  · exact hdirs x hx
  · exact directory_upward hbelow hdir

end Disk

namespace Access

theorem openFile_succeeds (given : Mode) {t : Target} (hhere : d.get? here = some .directory)
    (h : d.resolve here .makeFile p = .ok t) (hwritable : d.Writable t.loc) :
    ∃ dir name mode d', openFile p given here d = (.ok (dir, name, mode), d') := by
  cases t with
  | free dir name => exact ⟨dir, name, given, _, by rw [openFile, h]⟩
  | entry loc =>
    obtain ⟨e, he, -⟩ := resolve_sound hhere h
    obtain hnone | ⟨content, mode, hfile, hmode⟩ := hwritable
    · simp [Target.loc, he] at hnone
    rw [Target.loc] at hfile
    cases hlast : loc.getLast? with
    | none =>
      rw [List.getLast?_eq_none_iff.1 hlast, get?_root] at hfile
      cases hfile
    | some name =>
      refine ⟨loc.dropLast, name, mode.mended, d.put loc.dropLast name (.file [] mode.mended), ?_⟩
      simp [openFile, h, hfile, hlast, hmode]

theorem copyFile_succeeds {t : Target} {content : Bytes} {mode : Mode}
    (hhere : d.get? here = some .directory) (hsource : d.locate here source = .ok loc)
    (hfile : d.get? loc = some (.file content mode)) (hwhole : Whole content mode)
    (h : d.resolve here .makeFile target = .ok t) (hwritable : d.Writable t.loc) :
    ∃ d', copyFile source target here d = (.ok (), d') := by
  have hlocate : locate source here d = (.ok loc, d) := by rw [locate, hsource]
  have hread : d.file? loc = some (content, mode) := by rw [file?, hfile]
  obtain ⟨dir, name, mode', d', hopen⟩ := openFile_succeeds mode.mended hhere h hwritable
  obtain ⟨e, hfill⟩ : ∃ e, fillFrom loc dir name mode.mended here d' = (.ok (), e) := by
    refine ⟨_, fillFrom_eq_ok_iff.2 ⟨fun content' held hheld => ?_, rfl⟩⟩
    refine whole_of_openFile rfl hopen (fun content' mode' hfile' => ?_)
      (file?_eq_some_iff.1 hheld)
    obtain ⟨rfl, rfl⟩ : content = content' ∧ mode = mode' := by simpa [hfile] using hfile'
    exact hwhole
  refine ⟨e, ?_⟩
  rw [copyFile, bind_apply_ok hlocate, bind_apply_ok (get_apply here d)]
  simp only [hread]
  rw [bind_apply_ok hopen]
  exact hfill

end Access

namespace Files

theorem follow_eq {above : Trail} (hd : d.Plain)
    (h : d.resolve here .lookAtLink p = .ok (.entry loc)) :
    follow above p here d = (.ok loc, d) := by
  have hlocate : d.locateLink here p = .ok loc := by rw [locateLink, h]
  simp only [follow, bind_apply, get_apply, place_apply, hlocate]
  cases he : d.get? loc with
  | none => simp
  | some e =>
    cases e with
    | link target => exact absurd he (hd.linkless loc target)
    | _ => simp

theorem list_eq (h : d.resolve here .look p = .ok (.entry loc))
    (hdir : d.get? loc = some .directory) : Access.list p here d = (.ok (d.names loc), d) := by
  have hlocate : Access.locate p here d = (.ok loc, d) := by
    rw [Access.locate, locate_eq_ok_iff.2 h]
  rw [Access.list, bind_apply_ok hlocate, bind_apply_ok (get_apply here d),
    if_pos (by simpa [isDirectory] using hdir)]
  rfl

section Steps
variable {fuel : Nat} {above : Trail} (hsteps : source.steps ≠ [])
variable (hnames : ∀ name ∈ names, IsName name)
variable (hfollow : follow above (source.below names) here c = (.ok loc, c))
include hsteps hnames hfollow

theorem copyBelow_directory {listed : List String} (hdir : c.get? loc = some .directory)
    (hlist : Access.list (source.below names) here c = (.ok listed, c))
    (hensure : ensureDir (target.join (ofNames names)) here c = (.ok (), d)) :
    copyBelow source target (fuel + 1) above (source.below names) here c =
      sumNames (fun name => copyBelow source target fuel ((source.below names, loc) :: above)
        (source.below (names ++ [name]))) listed here d := by
  rw [copyBelow, bind_apply_ok hfollow]
  simp only [relativeTo?_below hnames hsteps]
  rw [bind_apply_ok (get_apply here c), if_pos (by simpa [isDirectory] using hdir),
    bind_apply_ok (attempt_of_eq hlist), bind_apply_ok hensure]
  simp only [below_append]

theorem copyBelow_file (hdir : c.get? loc ≠ some .directory)
    (hcopy : copyFile (source.below names) (target.join (ofNames names)) here c = (.ok (), d)) :
    copyBelow source target (fuel + 1) above (source.below names) here c = (.ok 1, d) := by
  rw [copyBelow, bind_apply_ok hfollow]
  simp only [relativeTo?_below hnames hsteps]
  rw [bind_apply_ok (get_apply here c), if_neg (by simpa [isDirectory] using hdir),
    bind_apply_ok hcopy]
  rfl

end Steps

theorem copyTree_apply (h : c.isDirAt here source) :
    copyTree source target here c = copyBelow source target maxDepth [] source here c := by
  have hthere : (Access.isDir source : Files Bool) here c = (.ok (c.isDirAt here source), c) := rfl
  rw [copyTree, bind_apply_ok hthere, if_pos h]

/-- Where every turn succeeds and keeps what those after it need, so does the whole, and the counts
are added. -/
theorem sumNames_succeeds {inv : List String → Disk → Prop} {f : String → Files Nat}
    {count : String → Nat}
    (hturn : ∀ name rest, name :: rest <:+ names → ∀ c, inv (name :: rest) c →
      ∃ d, f name here c = (.ok (count name), d) ∧ inv rest d)
    (hc : inv names c) : ∃ d, sumNames f names here c = (.ok (names.map count).sum, d) := by
  induction names generalizing c with
  | nil => exact ⟨c, rfl⟩
  | cons name rest ih =>
    obtain ⟨c₁, hfirst, hc₁⟩ := hturn name rest (List.suffix_refl _) c hc
    obtain ⟨d, hmore⟩ := ih (fun name' rest' hsuffix =>
      hturn name' rest' (hsuffix.trans (List.suffix_cons name rest))) hc₁
    refine ⟨d, ?_⟩
    rw [sumNames, bind_apply_ok hfirst, bind_apply_ok hmore]
    rfl

/-- What each turn needs held from the start, where no turn brings it about for another name. -/
theorem sumNames_needs {P : String → Disk → Prop} {Q : Disk → Prop} {f : String → Files Nat}
    {n : Nat} (hnodup : names.Nodup)
    (hturn : ∀ name ∈ names, ∀ c k d, Q c → f name here c = (.ok k, d) →
      Q d ∧ P name c ∧ ∀ other ∈ names, name ≠ other → P other d → P other c)
    (hc : Q c) (h : sumNames f names here c = (.ok n, d)) : ∀ name ∈ names, P name c := by
  induction names generalizing c n with
  | nil => simp
  | cons name rest ih =>
    obtain ⟨hfirst, hnodup⟩ := List.nodup_cons.1 hnodup
    obtain ⟨k, c₁, hone, h⟩ := bind_eq_ok_iff.1 h
    obtain ⟨more, c₂, hmore, h⟩ := bind_eq_ok_iff.1 h
    obtain ⟨-, rfl⟩ := ok_inj h
    obtain ⟨hc₁, hneeded, hback⟩ := hturn name List.mem_cons_self c k c₁ hc hone
    have hrest := ih hnodup (fun other hother c k d hc hf =>
      have ⟨hd, hp, hkeeps⟩ := hturn other (List.mem_cons_of_mem _ hother) c k d hc hf
      ⟨hd, hp, fun third hthird => hkeeps third (List.mem_cons_of_mem _ hthird)⟩) hc₁ hmore
    refine List.forall_mem_cons.2 ⟨hneeded, fun other hother => ?_⟩
    exact hback other (List.mem_cons_of_mem _ hother) (fun heq => hfirst (heq ▸ hother))
      (hrest other hother)

end Files

end GemStaging
