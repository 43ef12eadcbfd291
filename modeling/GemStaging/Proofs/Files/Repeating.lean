import GemStaging.Proofs.Files.Overlaying
import GemStaging.Proofs.Files.Rewriting

/-!
Copying again. A copy has the mode of its source, so it can be written over where the source may be
written. Then, on a grown disk on which everything stands where a copy has put it, the same copy
succeeds, counts the same files and changes nothing (`Files.copyFile_again`,
`Files.copyTree_again`).
-/

namespace GemStaging

open Effect Disk GemStaging.Path

variable {here loc : Location} {p source target : Path} {names : List String} {b c d e : Disk}

namespace Disk

theorem Plain.walkHops_lookAtLink {slash : Bool} {onLink : OnLink} {hops : List String}
    (hd : d.Plain) :
    walkHops d .lookAtLink slash onLink loc hops = walkHops d .look slash onLink loc hops := by
  induction hops generalizing loc with
  | nil => rfl
  | cons hop rest ih =>
    simp only [walkHops, ih]
    cases he : d.get? (loc ++ [hop]) with
    | none => simp
    | some f =>
      cases f with
      | link target => exact absurd he (hd.linkless _ _)
      | _ => simp

theorem Plain.resolve_lookAtLink (hd : d.Plain) :
    d.resolve here .lookAtLink p = d.resolve here .look p := by
  rw [resolve, resolve, show maxLinks = 39 + 1 from rfl, walk, walk, hd.walkHops_lookAtLink,
    hd.walkHops_congr fun _ _ => rfl]

theorem Grows.look (hg : c.Grows d) (hhere : c.get? here = some .directory)
    (h : c.resolve here .look p = .ok (.entry loc)) :
    d.resolve here .look p = .ok (.entry loc) := by
  refine hg.arrives (.inl rfl) rfl h ?_
  rcases get?_of_look hhere h with hdir | ⟨content, mode, hfile⟩
  · exact .inl (hg.directory hdir)
  · exact .inr ⟨hg.file hfile, .inr ⟨rfl, rfl⟩⟩

theorem isFileAt_iff :
    d.isFileAt here p = true ↔ ∃ loc content mode,
      d.resolve here .look p = .ok (.entry loc) ∧ d.get? loc = some (.file content mode) := by
  rw [isFileAt]
  constructor
  · intro h
    split at h
    · rename_i content mode he
      obtain ⟨loc, hl, hfile⟩ := at?_eq_some_iff.1 he
      exact ⟨loc, content, mode, hl, hfile⟩
    · cases h
  · rintro ⟨loc, content, mode, hl, hfile⟩
    rw [at?_eq_some_iff.2 ⟨loc, hl, hfile⟩]

theorem Grows.isFileAt (hg : c.Grows d) (hhere : c.get? here = some .directory)
    (h : c.isFileAt here p) : d.isFileAt here p := by
  obtain ⟨loc, content, mode, hl, hfile⟩ := isFileAt_iff.1 h
  obtain ⟨content', mode', hfile'⟩ := hg.file hfile
  exact isFileAt_iff.2 ⟨loc, content', mode', hg.look hhere hl, hfile'⟩

/-- What stands at or below a place on one disk stands likewise at another place on another disk. -/
def Carries (x y : Location) (c d : Disk) : Prop :=
  ∀ rest e, c.get? (x ++ rest) = some e → d.get? (y ++ rest) = some e

def Rewritable (d : Disk) (place : Location) : Prop :=
  ∀ rest content mode, d.get? (place ++ rest) = some (.file content mode) → mode.writable

/-- What is held stays held where changes at the place itself are made on directories only that were
there. -/
theorem Holding.of_confined {region : Location → Prop} (h : Holding loc b c) (hg : c.Grows d)
    (hconfined : Confined region c d)
    (hregion : ∀ rest, region (loc ++ rest) → b.get? (loc ++ rest) = some .directory) :
    Holding loc b d where
  plain := (hconfined h.plain).1
  grown := h.grown.trans hg
  kept := by
    funext rest
    by_cases hrest : region (loc ++ rest)
    · have hdir := hregion rest hrest
      rw [under, under, hdir, (h.grown.trans hg).directory hdir]
    · rw [under, (hconfined h.plain).2 _ hrest]
      exact congrFun h.kept rest

end Disk

namespace Access

/-- A file that was copied and may be written is copied again: as the same file stands at the goal,
nothing changes. -/
theorem copyFile_again {content : Bytes} {mode : Mode} (hc : c.Plain)
    (hhere : c.get? here = some .directory) (hne : goal here source ≠ goal here target)
    (h : Access.copyFile source target here c = (.ok (), d)) (he : e.Plain) (hg : d.Grows e)
    (hfile : c.get? (goal here source) = some (.file content mode)) (hmode : mode.writable)
    (hkept : e.get? (goal here source) = some (.file content mode))
    (hsame : e.get? (goal here target) = e.get? (goal here source)) :
    Access.copyFile source target here e = (.ok (), e) := by
  have hce : c.Grows e := ((copyFile_grows _ _).of_eq h).trans hg
  obtain ⟨⟨content', mode', hread, hwhole⟩, -⟩ := copyFile_plain hc hhere hne h
  obtain ⟨rfl, rfl⟩ : content = content' ∧ mode = mode' := by simpa [hfile] using hread
  obtain ⟨found, _, _, dir, name, mode', c', hl, -, hopen, -, rfl⟩ := exists_of_copyFile h
  obtain rfl : found = goal here source := hc.loc_of_resolve (locate_eq_ok_iff.1 hl)
  obtain ⟨-, -, harrives⟩ := openFile_arrives hhere hopen
  have hc'e : c'.Grows e := (Grows.put_file (openFile_takesFile hopen).2 _ _).trans hg
  have hopened := harrives e hc'e .makeFile (.inr rfl)
  have hplace : goal here target = dir ++ [name] := (he.loc_of_resolve hopened).symm
  have hhere' := hce.directory hhere
  obtain ⟨e', hcopy⟩ := copyFile_succeeds hhere'
    (locate_eq_ok_iff.2 (hce.look hhere (locate_eq_ok_iff.1 hl))) hkept hwhole hopened
    (.inr ⟨content, mode, by rw [Target.loc, ← hplace, hsame, hkept], hmode⟩)
  obtain ⟨-, -, -, hgoal, hothers⟩ := copyFile_plain he hhere' hne hcopy
  have hdisk : e' = e := by
    refine ext_get? fun k => ?_
    by_cases hk : k = goal here target
    · rw [hk, hgoal, hsame]
    · exact hothers k hk
  rwa [hdisk] at hcopy

end Access

namespace Files

theorem copyFile_again {content : Bytes} {mode : Mode} (hc : c.Plain)
    (hhere : c.get? here = some .directory) (hne : goal here source ≠ goal here target)
    (h : copyFile source target here c = (.ok (), d)) (he : e.Plain) (hg : d.Grows e)
    (hfile : c.get? (goal here source) = some (.file content mode)) (hmode : mode.writable)
    (hkept : e.get? (goal here source) = c.get? (goal here source))
    (hsame : e.get? (goal here target) = e.get? (goal here source)) :
    copyFile source target here e = (.ok (), e) := by
  obtain ⟨⟨⟩, c', hparent, h⟩ := bind_eq_ok_iff.1 h
  rw [mapError_eq_ok_iff] at h
  have hextends : c.Extends c' := (ensureParent_extends target).of_eq hparent
  have hg' : c'.Grows e := ((Access.copyFile_grows _ _).of_eq h).trans hg
  rw [copyFile, bind_apply_ok (ensureParent_again hhere hparent hg'), mapError_eq_ok_iff]
  exact Access.copyFile_again (ensureParent_plain hc hparent).1 (hextends here _ hhere) hne h he hg
    (hextends _ _ hfile) hmode (hkept.trans hfile) hsame

theorem follow_again {above : Trail} (hc : c.Plain) (hhere : c.get? here = some .directory)
    (h : follow above p here c = (.ok loc, d)) (he : e.Plain) (hg : c.Grows e) :
    follow above p here e = (.ok loc, e) := by
  have hlook := resolve_of_follow hc h
  rw [hc.resolve_lookAtLink] at hlook
  refine follow_eq he ?_
  rw [he.resolve_lookAtLink]
  exact hg.look hhere hlook

theorem list_again (hc : c.Plain) (hhere : c.get? here = some .directory)
    (h : Access.list p here c = (.ok names, d)) (hg : c.Grows e) :
    Access.list p here e = (.ok (e.names (goal here p)), e) := by
  have hdir := (list_plain hc h).1
  obtain ⟨loc, c₁, hlocate, -⟩ := bind_eq_ok_iff.1 h
  obtain ⟨hl, -⟩ := Prod.mk.inj hlocate
  have hlook := locate_eq_ok_iff.1 hl
  obtain rfl : loc = goal here p := hc.loc_of_resolve hlook
  exact list_eq (hg.look hhere hlook) (hg.directory hdir)

theorem sumNames_again {inv : Disk → Prop} {f : String → Files Nat} {n : Nat}
    (hgrows : ∀ name, Moves Grows here (f name))
    (hkeeps : ∀ name ∈ names, ∀ c k d, inv c → f name here c = (.ok k, d) → inv d)
    (hagain : ∀ name ∈ names, ∀ c k d, inv c → f name here c = (.ok k, d) → d.Grows e →
      f name here e = (.ok k, e))
    (hc : inv c) (h : sumNames f names here c = (.ok n, d)) (hg : d.Grows e) :
    sumNames f names here e = (.ok n, e) := by
  induction names generalizing c n with
  | nil =>
    obtain ⟨rfl, -⟩ := ok_inj h
    rfl
  | cons name rest ih =>
    obtain ⟨hname, hrest⟩ := List.forall_mem_cons.1 hkeeps
    obtain ⟨hname', hrest'⟩ := List.forall_mem_cons.1 hagain
    obtain ⟨k, c₁, hfirst, h⟩ := bind_eq_ok_iff.1 h
    obtain ⟨more, c₂, hmore, h⟩ := bind_eq_ok_iff.1 h
    obtain ⟨rfl, rfl⟩ := ok_inj h
    have hg' : c₁.Grows e := ((sumNames_moves fun name _ => hgrows name).of_eq hmore).trans hg
    rw [sumNames, bind_apply_ok (hname' c k c₁ hc hfirst hg'),
      bind_apply_ok (ih hrest hrest' (hname c k c₁ hc hfirst) hmore)]
    rfl

section Trees
variable (hbeside : Beside (goal here source) (goal here target))
variable (hroute : ∀ rest, goal here source ++ rest ∈ stops here target →
  b.get? (goal here source ++ rest) = some .directory)
include hbeside hroute

theorem holding_of_around (hc : Holding (goal here source) b c) (hg : c.Grows d)
    (hconfined : Confined (Around here target) c d) : Holding (goal here source) b d := by
  refine hc.of_confined hg hconfined fun rest hrest => ?_
  rcases hrest with hstop | hbelow
  · exact hroute rest hstop
  · exact absurd hbelow (hbeside.left rest).2

variable (hsteps : source.steps ≠ []) (hhere : b.get? here = some .directory)
variable (he : Holding (goal here source) b e)
variable (hcarries : Carries (goal here source) (goal here target) b e)
variable (hwritable : b.Rewritable (goal here source))
include hsteps hhere he hcarries hwritable

theorem copyBelow_again (fuel : Nat) (above : Trail) {n : Nat}
    (hnames : ∀ name ∈ names, IsName name) (hc : Holding (goal here source) b c)
    (h : copyBelow source target fuel above (source.below names) here c = (.ok n, d))
    (hg : d.Grows e) :
    copyBelow source target fuel above (source.below names) here e = (.ok n, e) := by
  induction fuel generalizing above names n c d with
  | zero => simp [copyBelow] at h
  | succ fuel ih =>
    have hce : c.Grows e := ((copyBelow_grows _ _ _ _ _).of_eq h).trans hg
    have hhere' := hc.grown.directory hhere
    have hsame : ∀ rest, e.get? (goal here source ++ rest) = c.get? (goal here source ++ rest) :=
      congrFun (he.kept.trans hc.kept.symm)
    obtain ⟨loc, relative, hfollow, hrelative, h⟩ := copyBelow_eq_ok fuel h
    obtain rfl := Option.some.inj ((relativeTo?_below hnames hsteps).symm.trans hrelative)
    have hlook := resolve_of_follow hc.plain hfollow
    obtain rfl : loc = goal here source ++ names :=
      goal_below hnames ▸ hc.plain.loc_of_resolve hlook
    have hfollow' := follow_again hc.plain hhere' hfollow he.plain hce
    split at h
    · rename_i hdir
      have hdir : c.get? (goal here source ++ names) = some .directory := by
        simpa [isDirectory] using hdir
      obtain ⟨listed, c', hlist, hensure, h⟩ := h
      have hlist' := list_again hc.plain hhere' hlist hce
      obtain rfl := (list_plain hc.plain hlist).2
      have hlisted : e.names (goal here source ++ names) = c.names (goal here source ++ names) := by
        refine names_congr fun name => ?_
        rw [List.append_assoc, hsame]
      rw [goal_below hnames, hlisted] at hlist'
      have hc'e : c'.Grows e :=
        ((sumNames_moves fun _ _ => copyBelow_grows _ _ _ _ _).of_eq h).trans hg
      have hensure' := ensureDir_again hhere' hensure hc'e
      have hc' : Holding (goal here source) b c' := by
        refine holding_of_around hbeside hroute hc ((ensureDir_grows _).of_eq hensure) ?_
        exact (ensureDir_confined fun x hx => around_of_mem_stops_join hnames hx).of_eq hensure
      rw [copyBelow_directory hsteps hnames hfollow' ((hsame names).trans hdir) hlist' hensure']
      simp only [below_append]
      rw [goal_below hnames] at h
      have hnames' : ∀ name ∈ c.names (goal here source ++ names), ∀ n ∈ names ++ [name],
          IsName n := fun name hname =>
        isName_of_mem_concat hnames (hc.plain.isName_of_mem_names hname)
      -- each turn keeps what the source holds, and with that the next one can be repeated
      refine sumNames_again (fun _ => copyBelow_grows _ _ _ _ _) ?_ ?_ hc' h hg
      · intro name hname c₁ k d₁ hc₁ hturn
        rw [← below_append] at hturn
        refine holding_of_around hbeside hroute hc₁ ((copyBelow_grows _ _ _ _ _).of_eq hturn) ?_
        exact (copyBelow_confined hsteps (fun _ hx => hx) fuel _ (hnames' name hname)).of_eq hturn
      · intro name hname c₁ k d₁ hc₁ hturn hg₁
        rw [← below_append] at hturn ⊢
        exact ih _ (hnames' name hname) hc₁ hturn hg₁
    · rename_i hdir
      obtain ⟨hcopy, rfl⟩ := h
      obtain ⟨f, hf, -⟩ := resolve_sound hhere' hlook
      have hbefore : b.get? (goal here source ++ names) = some f :=
        (congrFun hc.kept names).symm.trans hf
      have hne : goal here source ++ names ≠ goal here target ++ names := fun heq =>
        (hbeside.append names names).1 (heq ▸ List.prefix_refl _)
      obtain ⟨content, mode, rfl⟩ : ∃ content mode, f = .file content mode := by
        cases f with
        | file content mode => exact ⟨content, mode, rfl⟩
        | directory => simp [isDirectory, hf] at hdir
        | link goal => exact absurd hf (hc.plain.linkless _ _)
      refine copyBelow_file hsteps hnames hfollow' ?_
        (copyFile_again hc.plain hhere' ?_ hcopy he.plain hg (by rwa [goal_below hnames])
          (hwritable names _ _ hbefore) ?_ ?_)
      · rw [hsame]
        simpa [isDirectory] using hdir
      · rwa [goal_below hnames, goal_join_ofNames hnames]
      · rw [goal_below hnames, hsame]
      · rw [goal_below hnames, goal_join_ofNames hnames, hcarries names _ hbefore, hsame, hf]

omit hsteps in
/-- A tree that was copied beside itself is copied again: the same files are counted, and as they
stand below the goal, nothing changes. -/
theorem copyTree_again {n : Nat} (hc : Holding (goal here source) b c)
    (h : copyTree source target here c = (.ok n, d)) (hg : d.Grows e) :
    copyTree source target here e = (.ok n, e) := by
  obtain ⟨hdir, hcopy⟩ := copyTree_eq_ok h
  have hce : c.Grows e := ((copyTree_grows _ _).of_eq h).trans hg
  have hnone : ∀ name ∈ [], IsName name := by simp
  have hagain := copyBelow_again hbeside hroute (steps_ne_nil_of_isDirAt hdir) hhere he hcarries
    hwritable maxDepth [] hnone hc hcopy hg
  exact (copyTree_apply (hce.isDirAt hdir)).trans hagain

end Trees

end Files

end GemStaging
