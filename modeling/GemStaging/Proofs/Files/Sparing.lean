import GemStaging.Proofs.Files.Overlay

/-!
Which files an operation can touch. On a disk without links each operation writes at the goal of
its target path, or below it; beside that it makes directories, and only where nothing stood
(`Disk.Spares`). So what is a file elsewhere stays as it is, wherever the path leads through. A
copy that succeeds puts every file of its source below its goal (`Files.copyTo_filled`).
-/

namespace GemStaging

open Effect Disk GemStaging.Path

variable {here : Location} {region : Location → Prop}

namespace Tree
open Disk

def files (t : Tree) : Tree := fun rest => (t rest).filter (· matches .file ..)

theorem files_eq_some_iff {t : Tree} {rest : Location} {e : Entry} :
    t.files rest = some e ↔ t rest = some e ∧ ∃ content mode, e = .file content mode := by
  rw [files, Option.filter_eq_some_iff]
  refine and_congr_right fun _ => ?_
  cases e <;> simp

def child (t : Tree) (name : String) : Tree := fun rest => t (name :: rest)

def pick (t : Tree) (names : List String) : Tree
  | [] => none
  | name :: rest => if name ∈ names then t (name :: rest) else none

theorem pick_cons_shift (t : Tree) (place : Location) (name : String) (rest : List String) :
    (t.pick (name :: rest)).shift place =
      ((t.pick rest).shift place).atop ((t.child name).shift (place ++ [name])) := by
  funext loc
  rw [Tree.atop]
  by_cases hplace : place <+: loc
  · obtain ⟨more, rfl⟩ := hplace
    rw [shift_append, shift_append]
    cases more with
    | nil =>
      have hnot : ¬ place ++ [name] <+: place ++ [] := by
        rw [List.append_nil]
        exact not_append_prefix (List.cons_ne_nil _ _)
      rw [shift_of_not_below hnot]
      rfl
    | cons n more =>
      by_cases hn : n = name
      · subst hn
        have hsplit : place ++ n :: more = place ++ [n] ++ more := by simp
        rw [hsplit, shift_append]
        by_cases hrest : n ∈ rest <;> simp [pick, child, hrest]
      · rw [shift_of_not_below (not_prefix_of_ne (Ne.symm hn))]
        simp [pick, hn]
  · have hnot : ¬ place ++ [name] <+: loc := fun h => hplace ((List.prefix_append _ _).trans h)
    rw [shift_of_not_below hplace, shift_of_not_below hplace, shift_of_not_below hnot]
    rfl

end Tree

namespace Disk

/-- At the place nothing has changed, or a directory was made where nothing stood. -/
def SparedAt (loc : Location) (c d : Disk) : Prop :=
  d.get? loc = c.get? loc ∨ c.get? loc = none ∧ d.get? loc = some .directory

namespace SparedAt
variable {loc : Location} {b c d : Disk}

theorem refl (d : Disk) : SparedAt loc d d := .inl rfl

theorem trans (h : SparedAt loc b c) (h' : SparedAt loc c d) : SparedAt loc b d := by
  rcases h with h | ⟨hnone, hdir⟩
  · rwa [SparedAt, h] at h'
  · rcases h' with h' | ⟨hnone', -⟩
    · exact .inr ⟨hnone, h'.trans hdir⟩
    · rw [hdir] at hnone'
      cases hnone'

theorem eq_of_isSome (h : SparedAt loc c d) (hc : (c.get? loc).isSome) :
    d.get? loc = c.get? loc := by
  rcases h with h | ⟨hnone, -⟩
  · exact h
  · rw [hnone] at hc
    cases hc

theorem directory (h : SparedAt loc c d) (hc : c.get? loc = some .directory) :
    d.get? loc = some .directory := by
  rw [h.eq_of_isSome (by rw [hc]; rfl), hc]

theorem file_iff (h : SparedAt loc c d) {content : Bytes} {mode : Mode} :
    d.get? loc = some (.file content mode) ↔ c.get? loc = some (.file content mode) := by
  rcases h with h | ⟨hnone, hdir⟩
  · rw [h]
  · simp [hnone, hdir]

theorem file?_eq (h : SparedAt loc c d) : d.file? loc = c.file? loc := by
  rw [file?, file?]
  rcases h with h | ⟨hnone, hdir⟩
  · rw [h]
  · rw [hnone, hdir]

end SparedAt

/-- A plain disk stays plain, and outside a region nothing changes but that directories are made
where nothing stood. -/
def Spares (region : Location → Prop) (c d : Disk) : Prop :=
  c.Plain → d.Plain ∧ ∀ loc, ¬ region loc → SparedAt loc c d

instance : IsPreorder Disk (Spares region) where
  refl _ h := ⟨h, fun _ _ => .refl _⟩
  trans _ _ _ h h' hplain := by
    obtain ⟨hplain, hspared⟩ := h hplain
    obtain ⟨hplain, hspared'⟩ := h' hplain
    exact ⟨hplain, fun loc hloc => (hspared loc hloc).trans (hspared' loc hloc)⟩

theorem files_under_of_spared {loc : Location} {c d : Disk}
    (h : ∀ rest, SparedAt (loc ++ rest) c d) : (d.under loc).files = (c.under loc).files := by
  funext rest
  refine Option.ext fun e => ?_
  rw [Tree.files_eq_some_iff, Tree.files_eq_some_iff]
  refine and_congr_left ?_
  rintro ⟨content, mode, rfl⟩
  exact (h rest).file_iff

/-- Directories were made where nothing stood, and nothing else has changed. -/
abbrev OnlyMakes : Disk → Disk → Prop := Spares fun _ => False

theorem Spares.of_confined {c d : Disk} (h : Confined region c d) : Spares region c d := fun hc =>
  ⟨(h hc).1, fun loc hloc => .inl ((h hc).2 loc hloc)⟩

end Disk

namespace Access

theorem makeDir_spares (p : Path) : Moves (Spares region) here (makeDir p) := by
  refine makeDir_moves fun d dir name h hd => ?_
  refine ⟨hd.put (hd.isName_of_resolve h) (by simp), fun loc _ => ?_⟩
  have hnone : d.get? (dir ++ [name]) = none := get?_of_free h
  by_cases hloc : loc = dir ++ [name]
  · subst hloc
    by_cases hadmits : d.admits dir name .directory
    · exact .inr ⟨hnone, by rw [get?_put hadmits, if_pos rfl]⟩
    · exact .inl (by rw [put, dif_neg hadmits])
  · exact .inl (get?_put_of_ne hloc)

theorem makeDirs_spares (p : Path) : Moves (Spares region) here (makeDirs p) :=
  makeDirs_moves (fun _ _ _ _ => trivial) (fun p _ => makeDir_spares p) trivial

section Opening
variable {p : Path} (hp : region (goal here p))
include hp

theorem openFile_spares (executable : Mode) :
    Moves (Spares region) here (openFile p executable) := by
  refine openFile_moves ?_
  intro c dir name mode d h
  refine .of_confined (.put (fun hc => (openFile_plain hc h).2) (by simp) ?_)
  intro hc
  rwa [(openFile_plain hc h).1]

theorem put_spares {executable mode : Mode} {dir : Location} {name : String} {c d : Disk}
    (h : openFile p executable here c = (.ok (dir, name, mode), d)) (content : Bytes)
    (mode' : Mode) :
    Spares region c (d.put dir name (.file content mode')) := by
  intro hc
  obtain ⟨hgoal, hname⟩ := openFile_plain hc h
  refine trans_of (Spares region) ((openFile_spares hp executable).of_eq h) ?_ hc
  exact .of_confined (.put (fun _ => hname) (by simp) fun _ => hgoal ▸ hp)

theorem copyFile_spares (source : Path) : Moves (Spares region) here (copyFile source p) :=
  copyFile_moves fun _ _ _ _ _ _ hopen => put_spares hp hopen

theorem writeFile_spares (content : Bytes) : Moves (Spares region) here (writeFile p content) :=
  writeFile_moves fun _ _ _ _ _ hopen => put_spares hp hopen _ _

end Opening

end Access

namespace Files

theorem ensureDir_spares (p : Path) : Moves (Spares region) here (ensureDir p) :=
  (Access.makeDirs_spares p).mapError _

theorem ensureParent_spares (p : Path) : Moves (Spares region) here (ensureParent p) := by
  rw [ensureParent]
  split
  · exact ensureDir_spares _
  · exact .pure ()

theorem ensureDir_makes (p : Path) : Moves OnlyMakes here (ensureDir p) := ensureDir_spares p

theorem ensureParent_makes (p : Path) : Moves OnlyMakes here (ensureParent p) :=
  ensureParent_spares p

theorem copyFile_spares (source : Path) {target : Path} (hp : region (goal here target)) :
    Moves (Spares region) here (copyFile source target) :=
  .bind (ensureParent_spares _) fun _ => (Access.copyFile_spares hp source).mapError _

theorem writeText_spares {p : Path} (hp : region (goal here p)) (content : String) :
    Moves (Spares region) here (writeText p content) :=
  .bind (ensureParent_spares _) fun _ => (Access.writeFile_spares hp _).mapError _

section Copying
variable {source target : Path} (hsteps : source.steps ≠ [])
variable (hregion : ∀ rest, region (goal here target ++ rest))
include hsteps hregion

theorem copyBelow_spares (fuel : Nat) (above : Trail) {names : List String}
    (hnames : ∀ name ∈ names, IsName name) :
    Moves (Spares region) here (copyBelow source target fuel above (source.below names)) := by
  refine copyBelow_moves (R := Spares region) (fun _ _ h hc => h hc hc) hsteps
    (fun _ _ => ensureDir_spares _) (fun p names hnames => copyFile_spares p ?_) fuel above hnames
  rw [goal_join_ofNames hnames]
  exact hregion names

omit hsteps in
theorem copyTree_spares : Moves (Spares region) here (copyTree source target) := by
  refine .bind_of (.still fun _ => rfl) fun c dir c' h => ?_
  obtain ⟨rfl, rfl⟩ : c.isDirAt here source = dir ∧ c = c' := ok_inj h
  by_cases hdir : c.isDirAt here source
  · rw [if_pos hdir]
    exact copyBelow_spares (steps_ne_nil_of_isDirAt hdir) hregion _ _
      (by simp : ∀ name ∈ [], IsName name) c
  · rw [if_neg hdir]
    exact refl_of _ c

theorem copyTo_spares : Moves (Spares region) here (copyTo source target) := by
  have hself := hregion []
  rw [List.append_nil] at hself
  exact copyTo_moves (copyBelow_spares hsteps hregion _ _ (by simp : ∀ name ∈ [], IsName name))
    (copyFile_spares source hself)

end Copying

theorem copyInto_spares {base dir : Path} {name : String} (hname : IsName name)
    (hregion : ∀ rest, region (goal here dir ++ rest)) :
    Moves (Spares region) here (copyInto (base / name) dir) := by
  rw [copyInto, fileName?_div hname]
  refine .bind (copyTo_spares (by simp [steps_div hname]) fun rest => ?_) fun _ => .pure _
  rw [goal_div hname, List.append_assoc]
  exact hregion _

end Files

namespace Disk

/-- The files of a tree were put where the tree has them, and every other place was spared. -/
structure Filled (new : Tree) (c d : Disk) : Prop where
  filled : ∀ loc e, new loc = some e → d.get? loc = some e
  spared : ∀ loc, new loc = none → SparedAt loc c d

namespace Filled
variable {new more : Tree} {b c d : Disk}

theorem after_makes (hb : b.Plain) (h : OnlyMakes b c) (h' : Filled more c d) :
    Filled more b d where
  filled := h'.filled
  spared loc hloc := ((h hb).2 loc id).trans (h'.spared loc hloc)

theorem trans (h : Filled new b c) (h' : Filled more c d) : Filled (more.atop new) b d where
  filled loc e he := by
    rw [Tree.atop] at he
    cases hmore : more loc with
    | some e' =>
      rw [hmore, Option.some_or] at he
      exact h'.filled loc e (hmore.trans he)
    | none =>
      rw [hmore, Option.none_or] at he
      have hc := h.filled loc e he
      rw [(h'.spared loc hmore).eq_of_isSome (by rw [hc]; rfl), hc]
  spared loc he := by
    obtain ⟨hmore, hnew⟩ := Option.or_eq_none_iff.1 he
    exact (h.spared loc hnew).trans (h'.spared loc hmore)

theorem files_under {source place : Location} (h : Filled (new.shift place) c d)
    (hbeside : Beside source place) : (d.under source).files = (c.under source).files := by
  exact files_under_of_spared fun rest =>
    h.spared _ (Tree.shift_of_not_below (hbeside.left rest).2 new)

end Filled

/-- The disks that a step for each of some names leads through, one after another. -/
def Chain (step : String → Disk → Disk → Prop) : List String → Disk → Disk → Prop
  | [], c, d => c = d
  | name :: rest, c, d => ∃ b, step name c b ∧ Chain step rest b d

/-- The step puts the files that a tree has below a name under the same name in another place. The
files of the tree are those of the source, and stay there. -/
def Fills (here : Location) (source place : Location) (new : Tree)
    (step : String → Disk → Disk → Prop) (name : String) : Prop :=
  ∀ c d, step name c d → c.Plain → c.get? here = some .directory → (c.under source).files = new →
    d.Plain ∧ d.get? here = some .directory ∧ Filled ((new.child name).shift (place ++ [name])) c d

theorem Filled.of_chain {source place : Location} {new : Tree}
    {step : String → Disk → Disk → Prop} {names : List String} {c d : Disk}
    (hbeside : Beside source place)
    (hstep : ∀ name ∈ names, Fills here source place new step name) (h : Chain step names c d)
    (hc : c.Plain) (hhere : c.get? here = some .directory)
    (hsource : (c.under source).files = new) :
    d.Plain ∧ d.get? here = some .directory ∧ Filled ((new.pick names).shift place) c d := by
  induction names generalizing c with
  | nil =>
    obtain rfl := h
    refine ⟨hc, hhere, fun loc e he => ?_, fun loc _ => .refl _⟩
    rw [Tree.shift] at he
    split at he
    · generalize loc.drop place.length = rest at he
      cases rest <;> simp [Tree.pick] at he
    · cases he
  | cons name rest ih =>
    obtain ⟨hname, hrest⟩ := List.forall_mem_cons.1 hstep
    obtain ⟨b, hfirst, hmore⟩ := h
    obtain ⟨hb, hhere', hone⟩ := hname c b hfirst hc hhere hsource
    have hbeside' : Beside source (place ++ [name]) := hbeside.right [name]
    obtain ⟨hd, hhere'', hothers⟩ :=
      ih hrest hmore hb hhere' ((hone.files_under hbeside').trans hsource)
    rw [Tree.pick_cons_shift]
    exact ⟨hd, hhere'', hone.trans hothers⟩

end Disk

namespace Files

variable {source target : Path} {c d : Disk}

abbrev Moved (c : Disk) (source place : Location) : Tree := ((c.under source).files).shift place

theorem writeText_file {p : Path} {text : String} (hc : c.Plain)
    (hhere : c.get? here = some .directory) (h : writeText p text here c = (.ok (), d)) :
    ∃ mode, d.file? (goal here p) = some (Text.encode text, mode) := by
  obtain ⟨⟨⟩, c', hparent, h⟩ := bind_eq_ok_iff.1 h
  rw [mapError_eq_ok_iff] at h
  obtain ⟨-, dir, name, mode, c'', hopen, rfl⟩ := Access.writeFile_eq_ok h
  have hc' := ((ensureParent_makes p).of_eq hparent hc).1
  have hhere' := (ensureParent_extends p).of_eq hparent here _ hhere
  obtain ⟨hgoal, -⟩ := Access.openFile_plain hc' hopen
  obtain ⟨hfile, hdir, -⟩ := Access.openFile_arrives hhere' hopen
  have hadmits : c''.admits dir name (.file (Text.encode text) mode) := ⟨hdir, by simp [hfile]⟩
  refine ⟨mode, ?_⟩
  rw [file?, ← hgoal, get?_put hadmits, if_pos rfl]

theorem copyFile_filled (hc : c.Plain) (hhere : c.get? here = some .directory)
    (hne : goal here source ≠ goal here target) (h : copyFile source target here c = (.ok (), d)) :
    Filled (Moved c (goal here source) (goal here target)) c d := by
  obtain ⟨⟨⟩, c', hparent, h⟩ := bind_eq_ok_iff.1 h
  obtain ⟨hc', hspared⟩ := (ensureParent_makes target).of_eq hparent hc
  have hhere' := (ensureParent_extends target).of_eq hparent here _ hhere
  rw [mapError_eq_ok_iff] at h
  obtain ⟨⟨content, mode, hfile, -⟩, -, -, hput, hothers⟩ := Access.copyFile_plain hc' hhere' hne h
  have hsource := (hspared _ id).file_iff.1 hfile
  rw [hfile] at hput
  constructor
  · intro loc e he
    rw [Moved, Tree.shift] at he
    split at he
    · rename_i hbelow
      obtain ⟨rest, rfl⟩ := hbelow
      rw [List.drop_left, Tree.files_eq_some_iff, under] at he
      cases rest with
      | nil =>
        rw [List.append_nil, hsource] at he
        rw [List.append_nil, hput, he.1]
      | cons name rest =>
        rw [get?_append_of_ne (by simp [hsource]) (List.cons_ne_nil _ _)] at he
        cases he.1
    · cases he
  · intro loc hloc
    -- the goal is the one place at which the tree has something
    have hne' : loc ≠ goal here target := by
      rintro rfl
      have hsome := Tree.shift_append (goal here target) (c.under (goal here source)).files []
      rw [List.append_nil] at hsome
      rw [Moved, hsome] at hloc
      have hfiles : (c.under (goal here source)).files [] = some (.file content mode) := by
        rw [Tree.files_eq_some_iff, under, List.append_nil]
        exact ⟨hsource, content, mode, rfl⟩
      rw [hfiles] at hloc
      cases hloc
    rw [SparedAt, hothers loc hne']
    exact hspared loc id

theorem sumNames_chain {f : String → Files Nat} {names : List String} {n : Nat}
    (h : sumNames f names here c = (.ok n, d)) :
    Chain (fun name c d => ∃ k, f name here c = (.ok k, d)) names c d := by
  induction names generalizing c n with
  | nil => exact (Prod.mk.inj h).2
  | cons name rest ih =>
    obtain ⟨k, b, hfirst, h⟩ := bind_eq_ok_iff.1 h
    obtain ⟨more, b', hmore, h⟩ := bind_eq_ok_iff.1 h
    obtain ⟨-, rfl⟩ := Prod.mk.inj h
    exact ⟨b, ⟨k, hfirst⟩, ih hmore⟩

theorem child_under (c : Disk) (loc : Location) (name : String) :
    (c.under loc).files.child name = (c.under (loc ++ [name])).files := by
  funext rest
  simp [Tree.child, Tree.files, under]

theorem pick_names {loc : Location} (h : c.get? loc = some .directory) :
    ((c.under loc).files).pick (c.names loc) = (c.under loc).files := by
  funext rest
  cases rest with
  | nil =>
    have hnone : (c.under loc).files [] = none := by
      rw [Tree.files, under, List.append_nil, h]
      rfl
    rw [hnone]
    rfl
  | cons name rest =>
    by_cases hname : name ∈ c.names loc
    · simp [Tree.pick, hname]
    · have hnone : (c.under loc).files (name :: rest) = none := by
        rw [Tree.files, under_of_not_mem_names hname]
        rfl
      simp [Tree.pick, hname, hnone]

section Copying
variable (hbeside : Beside (goal here source) (goal here target)) (hsteps : source.steps ≠ [])
include hbeside hsteps

theorem copyBelow_filled (fuel : Nat) (above : Trail) {names : List String} {n : Nat}
    (hnames : ∀ name ∈ names, IsName name) (hc : c.Plain) (hhere : c.get? here = some .directory)
    (h : copyBelow source target fuel above (source.below names) here c = (.ok n, d)) :
    Filled (Moved c (goal here source ++ names) (goal here target ++ names)) c d := by
  induction fuel generalizing above names n c d with
  | zero => simp [copyBelow] at h
  | succ fuel ih =>
    have hgoal : goal here (target.join (ofNames names)) = goal here target ++ names :=
      goal_join_ofNames hnames
    obtain ⟨hdir, c', trail, hensure, h⟩ | ⟨-, h, -⟩ := copyBelow_cases hsteps hnames hc h
    · -- a directory: what it lists is copied name by name, and meanwhile keeps its files
      have hmade := (ensureDir_makes _).of_eq hensure
      have hhere' := (ensureDir_extends _).of_eq hensure here _ hhere
      have hc' := (hmade hc).1
      have hsame : (c'.under (goal here source ++ names)).files =
          (c.under (goal here source ++ names)).files :=
        files_under_of_spared fun rest => (hmade hc).2 _ id
      have hstep : ∀ name ∈ c.names (goal here source ++ names),
          Fills here (goal here source ++ names) (goal here target ++ names)
            (c.under (goal here source ++ names)).files
            (fun name b b' => ∃ k, copyBelow source target fuel trail
              (source.below (names ++ [name])) here b = (.ok k, b')) name := by
        rintro name hname b b' ⟨k, hcopy⟩ hb hhere' hsource
        have hnames' := isName_of_mem_concat hnames (hc.isName_of_mem_names hname)
        have hfilled := ih _ hnames' hb hhere' hcopy
        simp only [Moved, ← List.append_assoc] at hfilled
        rw [← child_under, hsource] at hfilled
        have hspares : Spares (fun _ => True) b b' :=
          (copyBelow_spares hsteps (fun _ => trivial) _ _ hnames').of_eq hcopy
        have hgrows := (copyBelow_grows _ _ _ _ _).of_eq hcopy
        exact ⟨(hspares hb).1, hgrows.directory hhere', hfilled⟩
      obtain ⟨-, -, hrest⟩ := Filled.of_chain (hbeside.append names names) hstep
        (sumNames_chain h) hc' hhere' hsame
      rw [pick_names hdir] at hrest
      exact hrest.after_makes hc hmade
    · have hne : goal here (source.below names) ≠ goal here (target.join (ofNames names)) := by
        rw [goal_below hnames, hgoal]
        intro heq
        exact (hbeside.append names names).1 (heq ▸ List.prefix_refl _)
      have hfile := copyFile_filled hc hhere hne h
      rwa [goal_below hnames, hgoal] at hfile

end Copying

theorem copyTo_filled {n : Nat} (hbeside : Beside (goal here source) (goal here target))
    (hc : c.Plain) (hhere : c.get? here = some .directory)
    (h : copyTo source target here c = (.ok n, d)) :
    Filled (Moved c (goal here source) (goal here target)) c d := by
  obtain ⟨hdir, h⟩ | ⟨-, -, h, -⟩ := copyTo_eq_ok h
  · obtain ⟨-, h⟩ := copyTree_eq_ok h
    have hnone : ∀ name ∈ ([] : List String), IsName name := by simp
    have hfilled := copyBelow_filled hbeside (steps_ne_nil_of_isDirAt hdir) _ _ hnone hc hhere h
    rwa [List.append_nil, List.append_nil] at hfilled
  · exact copyFile_filled hc hhere (fun heq => hbeside.1 (heq ▸ List.prefix_refl _)) h

/-- Copying what stands under a name, to the same name in another place, puts its files there. -/
theorem copyTo_fills {base place : Location} {name : String} {new : Tree}
    {step : String → Disk → Disk → Prop} (hbeside : Beside base place) (hsteps : source.steps ≠ [])
    (hsource : goal here source = base ++ [name]) (htarget : goal here target = place ++ [name])
    (hstep : ∀ c d, step name c d → ∃ n, copyTo source target here c = (.ok n, d)) :
    Fills here base place new step name := by
  intro c d h hc hhere hnew
  obtain ⟨n, hcopy⟩ := hstep c d h
  have hbeside' : Beside (goal here source) (goal here target) := by
    rw [hsource, htarget]
    exact hbeside.append [name] [name]
  have hspares : Spares (fun _ => True) c d :=
    (copyTo_spares hsteps fun _ => trivial).of_eq hcopy
  have hgrows := (copyTo_grows source target).of_eq hcopy
  have hfilled := copyTo_filled hbeside' hc hhere hcopy
  rw [Moved, hsource, htarget, ← child_under, hnew] at hfilled
  exact ⟨(hspares hc).1, hgrows.directory hhere, hfilled⟩

end Files

end GemStaging
