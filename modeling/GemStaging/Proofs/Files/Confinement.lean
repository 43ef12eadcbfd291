import GemStaging.Proofs.Disk.Around
import GemStaging.Proofs.Files.Copy

/-!
Where the operations on files write. On a disk without links each of them changes only places that
its target path goes through or that lie below its target, and leaves the disk without links.
-/

namespace GemStaging

open Effect Disk GemStaging.Path

variable {here : Location} {region : Location → Prop}

namespace Disk

/-- A plain disk stays plain and changes nowhere but in a region. -/
def Confined (region : Location → Prop) (c d : Disk) : Prop :=
  c.Plain → d.Plain ∧ ∀ loc, ¬ region loc → d.get? loc = c.get? loc

instance : IsPreorder Disk (Confined region) where
  refl _ h := ⟨h, fun _ _ => rfl⟩
  trans _ _ _ h h' hplain := by
    obtain ⟨hplain, hsame⟩ := h hplain
    obtain ⟨hplain, hsame'⟩ := h' hplain
    exact ⟨hplain, fun loc hloc => (hsame' loc hloc).trans (hsame loc hloc)⟩

theorem Confined.mono {region' : Location → Prop} {c d : Disk} (h : Confined region c d)
    (hregion : ∀ x, region x → region' x) : Confined region' c d := fun hc =>
  ⟨(h hc).1, fun loc hloc => (h hc).2 loc fun hx => hloc (hregion loc hx)⟩

theorem Confined.put {d : Disk} {dir : Location} {name : String} {e : Entry}
    (hname : d.Plain → IsName name) (he : ∀ target, e ≠ .link target)
    (hregion : d.Plain → region (dir ++ [name])) :
    Confined region d (d.put dir name e) := fun hd =>
  ⟨hd.put (hname hd) he, fun _ hloc => get?_put_of_ne fun heq => hloc (heq ▸ hregion hd)⟩

def Stays (here : Location) (c d : Disk) : Prop :=
  c.get? here = some .directory → d.get? here = some .directory

instance : IsPreorder Disk (Stays here) where
  refl _ h := h
  trans _ _ _ h h' hhere := h' (h hhere)

end Disk

namespace Access

theorem makeDir_confined {p : Path} (hp : ∀ x ∈ stops here p, region x) :
    Moves (Confined region) here (makeDir p) := by
  refine makeDir_moves fun d dir name h => .put (fun hd => hd.isName_of_resolve h) (by simp) ?_
  intro hd
  have hloc : dir ++ [name] = goal here p := hd.loc_of_resolve h
  rw [hloc]
  exact hp _ (goal_mem_stops here p)

theorem makeDirs_confined {p : Path} (hp : ∀ x ∈ stops here p, region x) :
    Moves (Confined region) here (makeDirs p) :=
  makeDirs_moves
    (fun p _ (hp : ∀ x ∈ stops here p, region x) hparent _ hx =>
      hp _ (mem_stops_of_parent? hparent hx))
    (fun _ hp => makeDir_confined hp) hp

theorem openFile_plain {p : Path} {given mode : Mode} {dir : Location} {name : String}
    {c d : Disk} (hc : c.Plain) (h : openFile p given here c = (.ok (dir, name, mode), d)) :
    dir ++ [name] = goal here p ∧ IsName name := by
  obtain ⟨⟨t, ht, hloc⟩, -, hfile⟩ := openFile_eq_ok h
  refine ⟨hloc.symm.trans (hc.loc_of_resolve ht), ?_⟩
  rcases hfile with ⟨hnone, -⟩ | ⟨_, _, hfile, -⟩
  · cases t with
    | entry loc =>
      rw [show loc = dir ++ [name] from hloc] at ht
      simp [openFile, ht, hnone] at h
    | free dir' name' =>
      obtain ⟨-, rfl⟩ : dir' = dir ∧ name' = name := by simpa [Target.loc] using hloc
      exact hc.isName_of_resolve ht
  · exact hc.named dir name (by rw [hfile]; rfl)

theorem openFile_confined {p : Path} (given : Mode) (hp : ∀ x ∈ stops here p, region x) :
    Moves (Confined region) here (openFile p given) := by
  refine openFile_moves ?_
  intro c dir name mode d h
  refine .put (fun hc => (openFile_plain hc h).2) (by simp) ?_
  intro hc
  rw [(openFile_plain hc h).1]
  exact hp _ (goal_mem_stops here p)

theorem put_confined {p : Path} {given mode : Mode} {dir : Location} {name : String}
    {c d : Disk} (hp : ∀ x ∈ stops here p, region x)
    (h : openFile p given here c = (.ok (dir, name, mode), d)) (content : Bytes)
    (mode' : Mode) :
    Confined region c (d.put dir name (.file content mode')) := by
  intro hc
  obtain ⟨hgoal, hname⟩ := openFile_plain hc h
  refine trans_of (Confined region) ((openFile_confined given hp).of_eq h) ?_ hc
  exact .put (fun _ => hname) (by simp) fun _ => hgoal ▸ hp _ (goal_mem_stops here p)

theorem writeFile_confined {p : Path} (hp : ∀ x ∈ stops here p, region x) (content : Bytes) :
    Moves (Confined region) here (writeFile p content) :=
  writeFile_moves fun _ _ _ _ _ hopen => put_confined hp hopen _ _

theorem copyFile_confined (source : Path) {target : Path} (hp : ∀ x ∈ stops here target, region x) :
    Moves (Confined region) here (copyFile source target) :=
  copyFile_moves fun _ _ _ _ _ _ hopen => put_confined hp hopen

end Access

namespace Files

theorem ensureDir_confined {p : Path} (hp : ∀ x ∈ stops here p, region x) :
    Moves (Confined region) here (ensureDir p) :=
  (Access.makeDirs_confined hp).mapError _

theorem ensureParent_confined {p : Path} (hp : ∀ x ∈ stops here p, region x) :
    Moves (Confined region) here (ensureParent p) := by
  rw [ensureParent]
  split
  · rename_i parent hparent
    exact ensureDir_confined fun x hx => hp x (mem_stops_of_parent? hparent hx)
  · exact .pure ()

theorem copyFile_confined (source : Path) {target : Path} (hp : ∀ x ∈ stops here target, region x) :
    Moves (Confined region) here (copyFile source target) :=
  .bind (ensureParent_confined hp) fun _ => (Access.copyFile_confined source hp).mapError _

theorem writeText_confined {p : Path} (hp : ∀ x ∈ stops here p, region x) (content : String) :
    Moves (Confined region) here (writeText p content) :=
  .bind (ensureParent_confined hp) fun _ => (Access.writeFile_confined hp _).mapError _

theorem list_plain {p : Path} {names : List String} {c d : Disk} (hc : c.Plain)
    (h : Access.list p here c = (.ok names, d)) :
    c.get? (goal here p) = some .directory ∧ names = c.names (goal here p) := by
  obtain ⟨loc, c₁, hlocate, h⟩ := bind_eq_ok_iff.1 h
  obtain ⟨hl, rfl⟩ := Prod.mk.inj hlocate
  obtain ⟨disk, c₂, hget, h⟩ := bind_eq_ok_iff.1 h
  obtain ⟨rfl, rfl⟩ := ok_inj hget
  obtain rfl : loc = goal here p := hc.loc_of_resolve (locate_eq_ok_iff.1 hl)
  split at h
  · rename_i hdir
    obtain ⟨hnames, -⟩ := ok_inj h
    exact ⟨by simpa [isDirectory] using hdir, hnames.symm⟩
  · simp at h

theorem resolve_of_follow {above : Trail} {p : Path} {loc : Location} {c d : Disk} (hc : c.Plain)
    (h : follow above p here c = (.ok loc, d)) :
    c.resolve here .lookAtLink p = .ok (.entry loc) := by
  simp only [follow, bind_apply, get_apply, place_apply] at h
  cases hl : c.locateLink here p with
  | error e => simp [hl] at h
  | ok found =>
    have hfound : c.resolve here .lookAtLink p = .ok (.entry found) := by
      rw [locateLink] at hl
      split at hl <;> simp_all
    have hstay : found = loc := by
      cases he : c.get? found with
      | none => simpa [hl, he] using (Prod.mk.inj h).1
      | some e =>
        cases e with
        | link => exact absurd he (hc.linkless _ _)
        | _ => simpa [hl, he] using (Prod.mk.inj h).1
    rwa [hstay] at hfound

theorem follow_plain {above : Trail} {p : Path} {loc : Location} {c d : Disk} (hc : c.Plain)
    (h : follow above p here c = (.ok loc, d)) : loc = goal here p :=
  hc.loc_of_resolve (resolve_of_follow hc h)

section Copying
variable {source target : Path}

/-- On a plain disk a walk that came to its end either made a directory and went on to the names
that are listed, or copied a file. -/
theorem copyBelow_cases (hsteps : source.steps ≠ []) {fuel n : Nat} {above : Trail}
    {names : List String} {c d : Disk} (hnames : ∀ name ∈ names, IsName name) (hc : c.Plain)
    (h : copyBelow source target (fuel + 1) above (source.below names) here c = (.ok n, d)) :
    (c.get? (goal here source ++ names) = some .directory ∧ ∃ c' trail,
        ensureDir (target.join (ofNames names)) here c = (.ok (), c') ∧
        sumNames (fun name => copyBelow source target fuel trail (source.below (names ++ [name])))
          (c.names (goal here source ++ names)) here c' = (.ok n, d)) ∨
      c.get? (goal here source ++ names) ≠ some .directory ∧
        copyFile (source.below names) (target.join (ofNames names)) here c = (.ok (), d) ∧
        n = 1 := by
  obtain ⟨loc, relative, hfollow, hrelative, h⟩ := copyBelow_eq_ok fuel h
  obtain rfl := Option.some.inj ((relativeTo?_below hnames hsteps).symm.trans hrelative)
  obtain rfl : loc = goal here source ++ names := goal_below hnames ▸ follow_plain hc hfollow
  split at h <;> rename_i hisDir
  · obtain ⟨listed, c', hlist, hensure, h⟩ := h
    obtain ⟨hdir, rfl⟩ := list_plain hc hlist
    rw [goal_below hnames] at hdir h
    simp only [← below_append] at h
    exact .inl ⟨hdir, c', _, hensure, h⟩
  · exact .inr ⟨fun hdir => hisDir (by simpa [isDirectory] using hdir), h⟩

/-- Copying a tree on a plain disk makes directories and copies files, at the same places below its
target as it finds them below its source. What is known of such a place, by a name that was listed
on a disk on which the copy may be, may be used for what is done there. -/
theorem copyBelow_moves_known {R : Disk → Disk → Prop} [IsPreorder Disk R] (inv : Disk → Prop)
    (known : List String → Prop) (hsteps : source.steps ≠ [])
    (hinv : ∀ c d, (inv c → R c d) → R c d) (hplain : ∀ c, inv c → c.Plain)
    (hisName : ∀ names, known names → ∀ name ∈ names, IsName name)
    (hlisted : ∀ c names name, inv c → known names → name ∈ c.names (goal here source ++ names) →
      known (names ++ [name]))
    (hdir : ∀ names, known names → Moves R here (ensureDir (target.join (ofNames names))))
    (hfile : ∀ names, known names →
      Moves R here (copyFile (source.below names) (target.join (ofNames names))))
    (fuel : Nat) (above : Trail) {names : List String} (hknown : known names) :
    Moves R here (copyBelow source target fuel above (source.below names)) := by
  induction fuel generalizing above names with
  | zero => exact .fail _
  | succ fuel ih =>
    have hnames := hisName names hknown
    rw [copyBelow]
    refine .bind (follow_unmoved above _).of_unmoved fun loc => ?_
    rw [relativeTo?_below hnames hsteps]
    refine .bind .get fun d => ?_
    split
    · refine .bind_of (list_unmoved _).of_unmoved.attempt ?_
      intro c listed c' hlist
      rw [attempt_apply] at hlist
      obtain ⟨hlisted', hdisk⟩ := Prod.mk.inj hlist
      obtain rfl : c = c' := hdisk ▸ list_unmoved _ c
      refine hinv _ _ fun hc => ?_
      refine Moves.bind (hdir names hknown) (fun _ => ?_) c
      split
      · exact .fail _
      · rename_i more
        refine sumNames_moves fun name hname => ?_
        have hlist' : Access.list (source.below names) here c = (.ok more, c) :=
          Prod.ext (Except.ok.inj hlisted') hdisk
        obtain ⟨-, rfl⟩ := list_plain (hplain c hc) hlist'
        rw [goal_below hnames] at hname
        rw [← below_append]
        exact ih _ (hlisted c names name hc hknown hname)
    · exact .bind (hfile names hknown) fun _ => .pure _

/-- Copying a tree on a plain disk makes directories and copies files, all below its target. -/
theorem copyBelow_moves {R : Disk → Disk → Prop} [IsPreorder Disk R]
    (hplain : ∀ c d, (c.Plain → R c d) → R c d) (hsteps : source.steps ≠ [])
    (hdir : ∀ names, (∀ name ∈ names, IsName name) →
      Moves R here (ensureDir (target.join (ofNames names))))
    (hfile : ∀ p names, (∀ name ∈ names, IsName name) →
      Moves R here (copyFile p (target.join (ofNames names))))
    (fuel : Nat) (above : Trail) {names : List String} (hnames : ∀ name ∈ names, IsName name) :
    Moves R here (copyBelow source target fuel above (source.below names)) :=
  copyBelow_moves_known Plain (fun names => ∀ name ∈ names, IsName name) hsteps hplain
    (fun _ hc => hc) (fun _ hnames => hnames)
    (fun _ _ _ hc hnames hname => isName_of_mem_concat hnames (hc.isName_of_mem_names hname)) hdir
    (fun _ hnames => hfile _ _ hnames) fuel above hnames

theorem copyTo_moves {R : Disk → Disk → Prop} [IsPreorder Disk R]
    (htree : Moves R here (copyBelow source target maxDepth [] source))
    (hfile : Moves R here (copyFile source target)) : Moves R here (copyTo source target) := by
  refine .bind (.still fun _ => rfl) fun _ => .ite ?_ ?_
  · exact .bind (.still fun _ => rfl) fun _ => .ite htree (.fail _)
  · exact .bind (.still fun _ => rfl) fun _ => .ite (.bind hfile fun _ => .pure _) (.fail _)

variable (hsteps : source.steps ≠ []) (hregion : ∀ x, Around here target x → region x)
include hsteps hregion

theorem copyBelow_confined (fuel : Nat) (above : Trail) {names : List String}
    (hnames : ∀ name ∈ names, IsName name) :
    Moves (Confined region) here (copyBelow source target fuel above (source.below names)) := by
  have hgoal {names : List String} (hnames : ∀ name ∈ names, IsName name) :
      ∀ x ∈ stops here (target.join (ofNames names)), region x := fun x hx =>
    hregion x (around_of_mem_stops_join hnames hx)
  exact copyBelow_moves (R := Confined region) (fun _ _ h hc => h hc hc) hsteps
    (fun _ hnames => ensureDir_confined (hgoal hnames))
    (fun p _ hnames => copyFile_confined p (hgoal hnames)) fuel above hnames

theorem copyTo_confined : Moves (Confined region) here (copyTo source target) :=
  copyTo_moves (copyBelow_confined hsteps hregion _ _ (by simp : ∀ name ∈ [], IsName name))
    (copyFile_confined source fun x hx => hregion x (.inl hx))

end Copying

theorem copyInto_confined {base dir : Path} {name : String} (hname : IsName name)
    (hregion : ∀ x, Around here dir x → region x) :
    Moves (Confined region) here (copyInto (base / name) dir) := by
  have hsteps : (base / name).steps ≠ [] := by simp [steps_div hname]
  rw [copyInto, fileName?_div hname]
  refine .bind (copyTo_confined hsteps ?_) fun _ => .pure _
  intro x hx
  exact hregion x (around_of_around_div hname hx)

end Files

end GemStaging
