import GemStaging.Proofs.Disk.Agreement
import GemStaging.Proofs.Effect.Respects
import GemStaging.Proofs.Files.Confinement

/-!
Operations on files do the same on disks that agree where the operations look. On disks without
links these are the places that the paths go through, and for trees the places below as well: what
else the disks hold makes no difference to a result, and none to the region that they agree in.
-/

namespace GemStaging

open Effect Disk GemStaging.Path

variable {here : Location} {region : Location → Prop} (hrooted : Rooted region)

namespace Access

section Looking
variable {ε : Type} {p : Path} (hp : ∀ x ∈ stops here p, region x)
include hp

theorem isDir_respects : Respects (Twins region) here (isDir p : Effect Location Disk ε Bool) :=
  fun _ _ h => ⟨congrArg Except.ok (h.isDirAt hp), h⟩

theorem isFile_respects : Respects (Twins region) here (isFile p : Effect Location Disk ε Bool) :=
  fun _ _ h => ⟨congrArg Except.ok (h.isFileAt hp), h⟩

theorem isThere_respects : Respects (Twins region) here (isThere p : Effect Location Disk ε Bool) :=
  fun _ _ h => ⟨congrArg Except.ok (h.existsAt hp), h⟩

theorem locate_respects : Respects (Twins region) here (locate p) :=
  fun _ _ h => ⟨h.locate hp, h⟩

theorem settle_respects (e : OsError) : Respects (Twins region) here (settle p e) :=
  .bind (isDir_respects hp) fun _ => .ite (.pure ()) (.fail e)

include hrooted

theorem makeDir_respects : Respects (Twins region) here (makeDir p) := by
  intro c d h
  rw [Alike, makeDir, makeDir, ← h.resolve hp]
  split
  · exact ⟨rfl, h⟩
  · exact ⟨rfl, h⟩
  · rename_i dir name hfree
    have hgoal : dir ++ [name] = goal here p := h.left.loc_of_resolve hfree
    have hloc : region (dir ++ [name]) := hgoal ▸ hp _ (goal_mem_stops here p)
    exact ⟨rfl, h.put hrooted hloc (h.left.isName_of_resolve hfree) (by simp)⟩

theorem makeOrKeepDir_respects : Respects (Twins region) here (makeOrKeepDir p) := by
  refine .bind (makeDir_respects hrooted hp).attempt ?_
  rintro (e | ⟨⟩)
  · exact settle_respects hp e
  · exact .pure ()

theorem makeDirsFrom_respects (fuel : Nat) :
    Respects (Twins region) here (makeDirsFrom fuel p) := by
  induction fuel generalizing p with
  | zero => exact .fail _
  | succ fuel ih =>
    refine .bind (makeDir_respects hrooted hp).attempt ?_
    rintro (e | ⟨⟩)
    · cases e with
      | notFound =>
        cases hparent : p.parent? with
        | none => exact .fail _
        | some parent =>
          simp only
          split
          · exact .bind (ih fun x hx => hp x (mem_stops_of_parent? hparent hx)) fun _ =>
              makeOrKeepDir_respects hrooted hp
          · exact makeOrKeepDir_respects hrooted hp
      | _ => exact settle_respects hp _
    · exact .pure ()

theorem makeDirs_respects : Respects (Twins region) here (makeDirs p) :=
  .ite (.pure ()) (makeDirsFrom_respects hrooted hp _)

theorem openFile_respects (given : Mode) :
    Respects (Twins region) here (openFile p given) := by
  intro c d h
  have hgoal := hp _ (goal_mem_stops here p)
  have hput {place : Location × String × Mode} {c' : Disk}
      (hopen : openFile p given here c = (.ok place, c')) (mode : Mode) :
      Twins region (c.put place.1 place.2.1 (.file [] mode))
        (d.put place.1 place.2.1 (.file [] mode)) := by
    obtain ⟨hloc, hname⟩ := openFile_plain h.left hopen
    exact h.put hrooted (hloc ▸ hgoal) hname (by simp)
  rw [Alike]
  cases hresolve : c.resolve here .makeFile p with
  | error e =>
    have hresolve' := (h.resolve hp).symm.trans hresolve
    simp only [openFile, hresolve, hresolve']
    exact ⟨trivial, h⟩
  | ok t =>
    have hresolve' := (h.resolve hp).symm.trans hresolve
    cases t with
    | free dir name =>
      have hopen : openFile p given here c =
          (.ok (dir, name, given), c.put dir name (.file [] given)) := by
        simp only [openFile, hresolve]
      simp only [hopen]
      simp only [openFile, hresolve']
      exact ⟨trivial, hput hopen given⟩
    | entry loc =>
      have hloc : loc = goal here p := h.left.loc_of_resolve hresolve
      have hentry : c.get? loc = d.get? loc := h.agree _ (hloc ▸ hgoal)
      simp only [openFile, hresolve, hresolve', ← hentry]
      split
      · rename_i content mode name hfile hname
        by_cases hwritable : mode.writable
        · have hopen : openFile p given here c =
              (.ok (loc.dropLast, name, mode.mended),
                c.put loc.dropLast name (.file [] mode.mended)) := by
            simp only [openFile, hresolve, hfile, hname, if_pos hwritable]
          simp only [if_pos hwritable]
          exact ⟨trivial, hput hopen mode.mended⟩
        · simp only [if_neg hwritable]
          exact ⟨trivial, h⟩
      · exact ⟨rfl, h⟩

omit hp in
theorem fillFrom_respects {source dir : Location} {name : String} (hsource : region source)
    (hloc : region (dir ++ [name])) (hname : IsName name) (mode : Mode) :
    Respects (Twins region) here (fillFrom source dir name mode) := by
  intro c d h
  rw [Alike, fillFrom_apply, fillFrom_apply, h.file? hsource]
  exact ⟨rfl, h.put hrooted hloc hname (by simp)⟩

theorem copyFile_respects {source : Path} (hsource : ∀ x ∈ stops here source, region x) :
    Respects (Twins region) here (copyFile source p) := by
  refine .bind_of (locate_respects hsource) ?_
  intro c from' c' d hlocate h
  obtain ⟨hl, rfl⟩ := Prod.mk.inj hlocate
  obtain rfl : from' = goal here source := h.left.loc_of_resolve (locate_eq_ok_iff.1 hl)
  have hfrom := hsource _ (goal_mem_stops here source)
  refine .get ?_
  rw [h.file? hfrom]
  split
  · exact ⟨rfl, h⟩
  · rename_i mode hfile
    refine (openFile_respects hrooted hp mode.mended _ _ h).bind ?_
    rintro ⟨dir, name, mode'⟩ c' d' hopen - h'
    obtain ⟨hgoal, hname⟩ := openFile_plain h.left hopen
    exact fillFrom_respects hrooted hfrom (hgoal ▸ hp _ (goal_mem_stops here p)) hname _ c' d' h'

end Looking

theorem list_respects {p : Path} (hp : ∀ x, Around here p x → region x) :
    Respects (Twins region) here (list p) := by
  have hstops : ∀ x ∈ stops here p, region x := fun x hx => hp x (.inl hx)
  refine .bind_of (locate_respects hstops) ?_
  intro c loc c' d hlocate h
  obtain ⟨hl, rfl⟩ := Prod.mk.inj hlocate
  obtain rfl : loc = goal here p := h.left.loc_of_resolve (locate_eq_ok_iff.1 hl)
  have hnames : c.names (goal here p) = d.names (goal here p) :=
    names_congr fun name => by rw [h.agree _ (hp _ (.inr (List.prefix_append _ [name])))]
  refine .get ?_
  rw [h.isDirectory (hstops _ (goal_mem_stops here p)), hnames]
  split
  · exact ⟨rfl, h⟩
  · exact ⟨rfl, h⟩

end Access

namespace Files

/-- On a plain disk a walk of a tree goes on where its path leads, since there is no link to
follow. -/
theorem follow_apply {c : Disk} (hc : c.Plain) (above : Trail) (p : Path) :
    follow above p here c = ((c.locateLink here p).mapError (walkFault p), c) := by
  simp only [follow, bind_apply, get_apply, place_apply]
  cases hl : c.locateLink here p with
  | error e => rfl
  | ok loc =>
    cases he : c.get? loc with
    | none =>
      simp only [he]
      rfl
    | some e =>
      cases e with
      | link => exact absurd he (hc.linkless _ _)
      | _ =>
        simp only [he]
        rfl

theorem follow_respects {p : Path} (hp : ∀ x ∈ stops here p, region x) (above : Trail) :
    Respects (Twins region) here (follow above p) := by
  intro c d h
  rw [Alike, follow_apply h.left, follow_apply h.right, h.locateLink hp]
  exact ⟨rfl, h⟩

theorem sumNames_respects {f : String → Files Nat} {names : List String}
    (h : ∀ name ∈ names, Respects (Twins region) here (f name)) :
    Respects (Twins region) here (sumNames f names) := by
  induction names with
  | nil => exact .pure 0
  | cons name rest ih =>
    obtain ⟨hname, hrest⟩ := List.forall_mem_cons.1 h
    exact .bind hname fun _ => .bind (ih hrest) fun _ => .pure _

include hrooted

theorem ensureDir_respects {p : Path} (hp : ∀ x ∈ stops here p, region x) :
    Respects (Twins region) here (ensureDir p) :=
  (Access.makeDirs_respects hrooted hp).mapError _

theorem ensureParent_respects {p : Path} (hp : ∀ x ∈ stops here p, region x) :
    Respects (Twins region) here (ensureParent p) := by
  rw [ensureParent]
  split
  · rename_i parent hparent
    exact ensureDir_respects hrooted fun x hx => hp x (mem_stops_of_parent? hparent hx)
  · exact .pure ()

theorem copyFile_respects {source target : Path} (hsource : ∀ x ∈ stops here source, region x)
    (htarget : ∀ x ∈ stops here target, region x) :
    Respects (Twins region) here (copyFile source target) :=
  .bind (ensureParent_respects hrooted htarget) fun _ =>
    (Access.copyFile_respects hrooted htarget hsource).mapError _

section Copying
variable {source target : Path} (hsteps : source.steps ≠ [])
variable (hsource : ∀ x, Around here source x → region x)
variable (htarget : ∀ x, Around here target x → region x)
include hsteps hsource htarget

theorem copyBelow_respects (fuel : Nat) (above : Trail) {names : List String}
    (hnames : ∀ name ∈ names, IsName name) :
    Respects (Twins region) here (copyBelow source target fuel above (source.below names)) := by
  induction fuel generalizing above names with
  | zero => exact .fail _
  | succ fuel ih =>
    have hbelow : ∀ x, Around here (source.below names) x → region x := fun x hx =>
      hsource x (around_of_around_below hnames hx)
    have hgoal : ∀ x ∈ stops here (target.join (ofNames names)), region x := fun x hx =>
      htarget x (around_of_mem_stops_join hnames hx)
    rw [copyBelow]
    refine .bind_of (follow_respects (fun x hx => hbelow x (.inl hx)) above) ?_
    intro c loc c' d hfollow h
    obtain rfl : c = c' := (follow_unmoved above _).of_eq hfollow
    obtain rfl : loc = goal here (source.below names) := follow_plain h.left hfollow
    rw [relativeTo?_below hnames hsteps]
    refine .get ?_
    rw [h.isDirectory (hbelow _ (.inl (goal_mem_stops here _)))]
    split
    · refine ((Access.list_respects hbelow).attempt c d h).bind ?_
      intro listed c' d' hlist _ h'
      rw [attempt_apply] at hlist
      obtain ⟨hlisted, rfl⟩ := Prod.mk.inj hlist
      refine (ensureDir_respects hrooted hgoal _ _ h').bind fun _ c₁ d₁ _ _ h₁ => ?_
      cases listed with
      | error e => exact ⟨rfl, h₁⟩
      | ok more =>
        have hplain : ∀ name ∈ more, IsName name := by
          intro name hname
          obtain ⟨-, rfl⟩ := list_plain h.left (Prod.ext (Except.ok.inj hlisted) rfl)
          exact h.left.isName_of_mem_names hname
        refine sumNames_respects (fun name hname => ?_) c₁ d₁ h₁
        rw [← below_append]
        exact ih _ (isName_of_mem_concat hnames (hplain name hname))
    · refine Respects.bind ?_ (fun _ => .pure _) c d h
      exact copyFile_respects hrooted (fun x hx => hbelow x (.inl hx)) hgoal

theorem copyTo_respects : Respects (Twins region) here (copyTo source target) := by
  have hfrom : ∀ x ∈ stops here source, region x := fun x hx => hsource x (.inl hx)
  have hfile : Respects (Twins region) here (copyFile source target) :=
    copyFile_respects hrooted hfrom fun x hx => htarget x (.inl hx)
  have htree : Respects (Twins region) here (copyTree source target) :=
    .bind (Access.isDir_respects hfrom) fun _ => .ite
      (copyBelow_respects hrooted hsteps hsource htarget _ _ (by simp : ∀ name ∈ [], IsName name))
      (.fail _)
  exact .bind (Access.isDir_respects hfrom) fun _ => .ite htree <|
    .bind (Access.isThere_respects hfrom) fun _ => .ite (.bind hfile fun _ => .pure _) (.fail _)

end Copying

theorem copyInto_respects {base dir : Path} {name : String} (hname : IsName name)
    (hbase : ∀ x, Around here base x → region x) (hdir : ∀ x, Around here dir x → region x) :
    Respects (Twins region) here (copyInto (base / name) dir) := by
  rw [copyInto, fileName?_div hname]
  have hsteps : (base / name).steps ≠ [] := by simp [steps_div hname]
  exact .bind (copyTo_respects hrooted hsteps (fun x hx => hbase x (around_of_around_div hname hx))
    fun x hx => hdir x (around_of_around_div hname hx)) fun _ => .pure _

end Files

end GemStaging
