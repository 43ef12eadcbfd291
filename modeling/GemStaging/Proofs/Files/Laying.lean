import GemStaging.Proofs.Disk.Counting
import GemStaging.Proofs.Files.Walking

/-!
When a directory can be laid beside itself. On a disk without links the copy of a directory to a
target beside it comes to its end where no file stands on the way to the target, nothing has to
change its kind, and each file can be read to its end and written where it comes to. It has counted
the files of the directory then (`Files.copyTree_succeeds`).
-/

namespace GemStaging

open Effect Disk GemStaging.Path

variable {here : Location} {source target : Path} {names : List String} {c d : Disk}

namespace Disk

def Clash (d : Disk) (x y : Location) : Prop :=
  d.get? x = some .directory ∧ (d.file? y).isSome ∨ (d.file? x).isSome ∧ d.get? y = some .directory

/-- Nothing has to change its kind where the tree at one place is laid over that at another one. -/
def Clashless (d : Disk) (x y : Location) : Prop := ∀ rest, ¬ d.Clash (x ++ rest) (y ++ rest)

theorem not_isSome_file? {loc : Location} (h : d.get? loc = some .directory) :
    ¬ (d.file? loc).isSome := by
  simp [file?, h]

theorem file?_congr {x y : Location} (h : c.get? x = d.get? y) : c.file? x = d.file? y := by
  rw [file?, file?, h]

theorem Clashless.append {x y : Location} (h : d.Clashless x y) (rel : Location) :
    d.Clashless (x ++ rel) (y ++ rel) := by
  intro rest
  rw [List.append_assoc, List.append_assoc]
  exact h (rel ++ rest)

theorem Clashless.of_taken {x y : Location} (h : c.Clashless x y) (hx : d.under x = c.under x)
    (hy : ∀ rest, d.get? (y ++ rest) = c.get? (y ++ rest) ∨
      d.get? (y ++ rest) = c.get? (x ++ rest)) : d.Clashless x y := by
  intro rest
  have hsource : d.get? (x ++ rest) = c.get? (x ++ rest) := congrFun hx rest
  rcases hy rest with hsame | htaken
  · have hold := h rest
    rwa [Clash, ← hsource, ← hsame, ← file?_congr hsource, ← file?_congr hsame] at hold
  · have heq : d.get? (x ++ rest) = d.get? (y ++ rest) := hsource.trans htaken.symm
    rintro (⟨hdir, hfile⟩ | ⟨hfile, hdir⟩)
    · exact not_isSome_file? (heq ▸ hdir) hfile
    · exact not_isSome_file? (heq.trans hdir) hfile

theorem Clashless.of_laid {x y : Location} {rel : List String} (h : c.Clashless x y)
    (hx : d.under x = c.under x) (hsome : (c.get? (x ++ rel)).isSome)
    (hlaid : Patched (((c.under (x ++ rel)).shift (y ++ rel)).atop (.directories [y ++ rel])) c d) :
    d.Clashless x y := by
  refine h.of_taken hx fun rest => ?_
  by_cases hbelow : y ++ rel <+: y ++ rest
  · obtain ⟨more, rfl⟩ := (List.prefix_append_right_inj _).1 hbelow
    have hloc := hlaid (y ++ rel ++ more)
    rw [Tree.atop, Tree.shift_append, Tree.directories, under] at hloc
    rw [← List.append_assoc, ← List.append_assoc, hloc]
    cases he : c.get? (x ++ rel ++ more) with
    | some e => exact .inr rfl
    | none =>
      have hne : more ≠ [] := by
        rintro rfl
        rw [List.append_nil] at he
        simp [he] at hsome
      left
      simp [hne]
  · have hne : y ++ rest ≠ y ++ rel := fun heq => hbelow (heq ▸ List.prefix_refl _)
    left
    rw [hlaid, Tree.atop, Tree.shift_of_not_below hbelow, Tree.directories,
      if_neg (by simpa using hne)]
    rfl

/-- A file at the first place can be read to its end, and one at the second place, which it is to
replace, may be written. -/
def YieldsAt (d : Disk) (x y : Location) : Prop :=
  ∀ file ∈ d.file? x, Access.Whole file.1 file.2 ∧ ∀ old ∈ d.file? y, old.2.writable

/-- The files of the tree at one place can take the places of those of the tree at another one. -/
def Yielding (d : Disk) (x y : Location) : Prop := ∀ rest, d.YieldsAt (x ++ rest) (y ++ rest)

theorem yieldsAt_iff {x y : Location} :
    d.YieldsAt x y ↔ ∀ content mode, d.get? x = some (.file content mode) →
      Access.Whole content mode ∧
        ∀ content' mode', d.get? y = some (.file content' mode') → mode'.writable := by
  simp [YieldsAt, file?_eq_some_iff]

namespace Yielding
variable {x y : Location}

theorem append (h : d.Yielding x y) (rel : Location) : d.Yielding (x ++ rel) (y ++ rel) := by
  intro rest
  rw [List.append_assoc, List.append_assoc]
  exact h (rel ++ rest)

theorem of_files (h : c.Yielding x y)
    (hx : ∀ rest content mode, d.get? (x ++ rest) = some (.file content mode) →
      c.get? (x ++ rest) = some (.file content mode))
    (hy : ∀ rest content mode, d.get? (y ++ rest) = some (.file content mode) →
      c.get? (y ++ rest) = some (.file content mode)) : d.Yielding x y := by
  refine fun rest => yieldsAt_iff.2 fun content mode hfile => ?_
  obtain ⟨hwhole, hwritable⟩ := yieldsAt_iff.1 (h rest) content mode (hx rest content mode hfile)
  exact ⟨hwhole, fun content' mode' hplace => hwritable _ _ (hy rest content' mode' hplace)⟩

theorem of_file {content : Bytes} {mode : Mode} (hfile : d.get? x = some (.file content mode))
    (hwhole : Access.Whole content mode) (hplace : d.Writable y) : d.Yielding x y := by
  refine fun rest => yieldsAt_iff.2 fun content' mode' hfile' => ?_
  cases rest with
  | cons name rest =>
    rw [get?_append_of_ne (by simp [hfile]) (List.cons_ne_nil _ _)] at hfile'
    cases hfile'
  | nil =>
    rw [List.append_nil] at hfile' ⊢
    obtain ⟨rfl, rfl⟩ : content = content' ∧ mode = mode' := by simpa [hfile] using hfile'
    refine ⟨hwhole, fun old oldMode hold => ?_⟩
    rcases hplace with hnone | ⟨_, _, hold', hmode⟩
    · simp [hold] at hnone
    · obtain ⟨rfl, rfl⟩ := by simpa [hold] using hold'
      exact hmode

theorem of_names (hdir : d.get? x = some .directory)
    (h : ∀ name ∈ d.names x, d.Yielding (x ++ [name]) (y ++ [name])) : d.Yielding x y := by
  refine fun rest => yieldsAt_iff.2 fun content mode hfile => ?_
  cases rest with
  | nil =>
    rw [List.append_nil, hdir] at hfile
    cases hfile
  | cons name rest =>
    have hyields := h name (mem_names_of_below (by rw [hfile]; rfl)) rest
    rw [← List.append_cons, ← List.append_cons] at hyields
    exact yieldsAt_iff.1 hyields content mode hfile

/-- A tree that is laid under one name leaves the files under another name yielding. -/
theorem iff_of_laid {new : Tree} {name other : String} (hbeside : Beside x y)
    (hne : other ≠ name)
    (hlaid : Patched ((new.shift (y ++ (names ++ [name]))).atop
      (.directories [y ++ (names ++ [name])])) c d) :
    d.Yielding (x ++ (names ++ [other])) (y ++ (names ++ [other])) ↔
      c.Yielding (x ++ (names ++ [other])) (y ++ (names ++ [other])) := by
  have hsource : Beside (x ++ (names ++ [other])) (y ++ (names ++ [name])) := hbeside.append _ _
  have hplace : Beside (y ++ (names ++ [other])) (y ++ (names ++ [name])) := by
    rw [← List.append_assoc, ← List.append_assoc]
    exact beside_of_ne hne
  refine forall_congr' fun rest => ?_
  have hx : d.get? (x ++ (names ++ [other]) ++ rest) = c.get? (x ++ (names ++ [other]) ++ rest) :=
    congrFun (hlaid.under_eq hsource (by simpa using hsource.1)) rest
  have hy : d.get? (y ++ (names ++ [other]) ++ rest) = c.get? (y ++ (names ++ [other]) ++ rest) :=
    congrFun (hlaid.under_eq hplace (by simpa using hplace.1)) rest
  rw [yieldsAt_iff, yieldsAt_iff, hx, hy]

theorem writable (h : d.Yielding x y) (hclash : d.Clashless x y) (hlinkless : ∀ target,
      d.get? y ≠ some (.link target)) {content : Bytes} {mode : Mode}
    (hfile : d.get? x = some (.file content mode)) : d.Writable y := by
  have hyields := h []
  have hclash := hclash []
  rw [List.append_nil, List.append_nil] at hyields hclash
  cases hplace : d.get? y with
  | none => exact .inl hplace
  | some e =>
    cases e with
    | link target => exact absurd hplace (hlinkless target)
    | directory => exact absurd (.inr ⟨by simp [file?, hfile], hplace⟩) hclash
    | file content' mode' =>
      exact .inr ⟨content', mode', hplace, (yieldsAt_iff.1 hyields _ _ hfile).2 _ _ hplace⟩

end Yielding

/-- A directory and a target beside it, on a disk without links, such that the system takes every
path that the copy goes along. -/
structure Separated (here : Location) (source target : Path) (c : Disk) : Prop where
  plain : c.Plain
  atHome : c.get? here = some .directory
  isDir : c.isDirAt here source
  beside : Beside (goal here source) (goal here target)
  limits : ∀ rel, (c.get? (goal here source ++ rel)).isSome →
    Fits (source.below rel) ∧ Fits (target.join (ofNames rel))

/-- Where the target's path moves up again, out of places at or below the directory or below the
target, it moves out of directories that are there; and it ends in a dot only behind a directory
that is there. -/
structure Overlayable (here : Location) (source target : Path) (c : Disk) : Prop extends
    Separated here source target c where
  passed : ∀ x ∈ stops here target, x ≠ goal here target →
    goal here source <+: x ∨ goal here target <+: x → c.get? x = some .directory
  settled : (hops target).getLast? = some "." → c.get? (goal here target) = some .directory

namespace Overlayable
variable (h : Overlayable here source target c)
include h

theorem steps_ne_nil : source.steps ≠ [] := Files.steps_ne_nil_of_isDirAt h.isDir

theorem get?_source : c.get? (goal here source) = some .directory :=
  stops_of_isDirAt h.plain h.atHome h.isDir _ (goal_mem_stops here source)

theorem isName_of_isSome {rel : List String} (hsome : (c.get? (goal here source ++ rel)).isSome) :
    ∀ name ∈ rel, IsName name := fun _ hname =>
  h.plain.isName_of_mem hsome _ (List.mem_append_right _ hname)

theorem of_grows (hd : d.Plain) (hg : c.Grows d)
    (hunder : d.under (goal here source) = c.under (goal here source)) :
    Overlayable here source target d where
  plain := hd
  atHome := hg.directory h.atHome
  isDir := hg.isDirAt h.isDir
  beside := h.beside
  limits rel hrel := h.limits rel (by rwa [show d.get? _ = _ from congrFun hunder rel] at hrel)
  passed x hx hne hplace := hg.directory (h.passed x hx hne hplace)
  settled hlast := hg.directory (h.settled hlast)

/-- What only changes on the way to places below the target leaves the directory as it is. -/
theorem under_source (hnames : ∀ name ∈ names, IsName name) (hg : c.Grows d)
    (hsame : ∀ loc, loc ∉ stops here (target.below names) → d.get? loc = c.get? loc) :
    d.under (goal here source) = c.under (goal here source) := by
  funext rest
  by_cases hstop : goal here source ++ rest ∈ stops here (target.below names)
  · rcases mem_stops_below hnames hstop with hstop | ⟨hbelow, -⟩
    · have hne : goal here source ++ rest ≠ goal here target := fun heq =>
        h.beside.1 (heq ▸ List.prefix_append _ _)
      have hdir := h.passed _ hstop hne (.inl (List.prefix_append _ _))
      rw [under, under, hdir, hg.directory hdir]
    · exact absurd hbelow (h.beside.left rest).2
  · exact hsame _ hstop

theorem not_isEmpty_below (hnames : ∀ name ∈ names, IsName name) :
    ¬ (source.below names).text.isEmpty := by
  rcases List.eq_nil_or_concat names with rfl | ⟨init, last, rfl⟩
  · obtain ⟨loc, hl, -⟩ := isDirAt_iff.1 h.isDir
    simp [(resolve_eq_ok_iff.1 hl).1.notEmpty]
  · rw [List.concat_eq_append, below_append]
    exact not_isEmpty_div (hnames last (by simp))

theorem stops_source_below (hnames : ∀ name ∈ names, IsName name)
    (hdir : c.get? (goal here source ++ names) = some .directory) :
    ∀ x ∈ stops here (source.below names), c.get? x = some .directory :=
  directory_of_mem_stops_below hnames (stops_of_isDirAt h.plain h.atHome h.isDir) hdir

theorem resolve_directory {purpose : Purpose} (hnames : ∀ name ∈ names, IsName name)
    (hdir : c.get? (goal here source ++ names) = some .directory) (hpurpose : purpose ≠ .makeFile) :
    c.resolve here purpose (source.below names) = .ok (.entry (goal here source ++ names)) := by
  have hfits := (h.limits names (by rw [hdir]; rfl)).1
  rw [h.plain.resolve_of_directories hfits (h.not_isEmpty_below hnames)
    (h.stops_source_below hnames hdir) hpurpose, goal_below hnames]

theorem resolve_file {purpose : Purpose} {init : List String} {last : String} {content : Bytes}
    {mode : Mode} (hnames : ∀ name ∈ init ++ [last], IsName name)
    (hfile : c.get? (goal here source ++ (init ++ [last])) = some (.file content mode)) :
    c.resolve here purpose (source.below (init ++ [last])) =
      .ok (.entry (goal here source ++ (init ++ [last]))) := by
  have hfits := (h.limits _ (by rw [hfile]; rfl)).1
  have hinit : ∀ name ∈ init, IsName name := fun name hname => hnames name (by simp [hname])
  rw [← List.append_assoc] at hfile ⊢
  have hdir := c.get?_parent (by rw [hfile]; rfl)
  have hgoal : goal here (source.below init) = goal here source ++ init := goal_below hinit
  rw [below_append] at hfits ⊢
  rw [resolve_div h.plain (hnames last (by simp)) hfits (h.stops_source_below hinit hdir), hgoal,
    hfile]
  · rfl
  · rw [hgoal, hfile]
    simp

theorem makeable (hclash : c.Clashless (goal here source) (goal here target))
    (hnames : ∀ name ∈ names, IsName name)
    (hdir : c.get? (goal here source ++ names) = some .directory)
    (hroot : names = [] → ∀ x ∈ stops here target, c.file? x = none)
    (hpaved : ∀ init last, names = init ++ [last] →
      ∀ x ∈ stops here (target.below init), c.get? x = some .directory) :
    Makeable here (target.join (ofNames names)) c := by
  refine ⟨(h.limits names (by rw [hdir]; rfl)).2, ?_, ?_⟩
  · rw [stops_join_ofNames hnames]
    rcases List.eq_nil_or_concat names with rfl | ⟨init, last, rfl⟩
    · exact hroot rfl
    · rw [List.concat_eq_append] at hnames hdir hpaved ⊢
      have hinit : ∀ name ∈ init, IsName name := fun name hname => hnames name (by simp [hname])
      rw [below_append, forall_mem_stops_div (hnames last (by simp)), goal_below hinit,
        List.append_assoc]
      refine ⟨fun x hx => by simp [file?, hpaved init last rfl x hx], ?_⟩
      by_contra hfile
      exact hclash _ (.inl ⟨hdir, Option.isSome_iff_ne_none.2 hfile⟩)
  · rw [hops_join (isAbsolute_ofNames hnames), hops_ofNames hnames, goal_join_ofNames hnames]
    rcases List.eq_nil_or_concat names with rfl | ⟨init, last, rfl⟩
    · simpa using h.settled
    · rw [List.concat_eq_append] at hnames ⊢
      rw [← List.append_assoc, List.getLast?_concat]
      intro hlast
      obtain rfl := Option.some.inj hlast
      exact absurd rfl (hnames "." (by simp)).ne_dot

end Overlayable

/-- The directory under some names is being filled: what the copy relied on at first still holds,
and the directories down to the one that is filled are there. Some of its entries are yet to be
copied. -/
structure Filling (here : Location) (source target : Path) (names : List String) (c : Disk)
    (remaining : List String) (d : Disk) : Prop where
  ready : Overlayable here source target d
  clashless : d.Clashless (goal here source) (goal here target)
  kept : d.under (goal here source) = c.under (goal here source)
  paved : ∀ x ∈ stops here (target.below names), d.get? x = some .directory
  yields : ∀ name ∈ remaining, d.Yielding (goal here source ++ (names ++ [name]))
    (goal here target ++ (names ++ [name]))

end Disk

namespace Files

section Turns
variable (h : Overlayable here source target c)
variable (hclash : c.Clashless (goal here source) (goal here target))
variable (hnames : ∀ name ∈ names, IsName name)
include h hclash hnames

theorem filling_of_ensureDir (hdir : c.get? (goal here source ++ names) = some .directory)
    (hyields : c.Yielding (goal here source ++ names) (goal here target ++ names))
    (hensure : ensureDir (target.join (ofNames names)) here c = (.ok (), d))
    (listed : List String) : Filling here source target names c listed d := by
  obtain ⟨hd, hmade⟩ := ensureDir_patched h.plain h.atHome hensure
  have hg : c.Grows d := (ensureDir_grows _).of_eq hensure
  rw [stops_join_ofNames hnames] at hmade
  have hdirs : ∀ x ∈ stops here (target.below names), d.get? x = some .directory := by
    intro x hx
    rw [hmade x, Tree.directories, if_pos hx]
    rfl
  have hunder : d.under (goal here source) = c.under (goal here source) := by
    refine h.under_source hnames hg fun loc hloc => ?_
    rw [hmade loc, Tree.directories, if_neg hloc]
    rfl
  have hfiles {loc : Location} {content : Bytes} {mode : Mode}
      (hfile : d.get? loc = some (.file content mode)) :
      c.get? loc = some (.file content mode) := by
    rw [hmade loc, Tree.directories] at hfile
    split at hfile
    · cases hfile
    · exact hfile
  refine ⟨h.of_grows hd hg hunder, hclash.of_taken hunder fun rest => ?_, hunder, hdirs, ?_⟩
  rotate_left
  · intro name _
    rw [← List.append_assoc, ← List.append_assoc]
    exact (hyields.append [name]).of_files (fun _ _ _ hfile => hfiles hfile)
      fun _ _ _ hfile => hfiles hfile
  by_cases hstop : goal here target ++ rest ∈ stops here (target.below names)
  · -- a stop below the target is there already, or it is there in the tree as well
    rw [hdirs _ hstop]
    rcases mem_stops_below hnames hstop with hstop | ⟨-, hbelow⟩
    · by_cases hrest : rest = []
      · right
        rw [hrest, List.append_nil, h.get?_source]
      · left
        exact (h.passed _ hstop (by simp [hrest]) (.inr (List.prefix_append _ _))).symm
    · right
      rw [List.prefix_append_right_inj] at hbelow
      exact (directory_upward ((List.prefix_append_right_inj _).2 hbelow) hdir).symm
  · left
    rw [hmade, Tree.directories, if_neg hstop]
    rfl

theorem filling_of_copyBelow {fuel n : Nat} {above : Trail} {name : String}
    {remaining : List String} (hname : IsName name) (hfirst : name ∉ remaining)
    (hsome : (c.get? (goal here source ++ (names ++ [name]))).isSome)
    (hpaved : ∀ x ∈ stops here (target.below names), c.get? x = some .directory)
    (hyields : ∀ name ∈ remaining, c.Yielding (goal here source ++ (names ++ [name]))
      (goal here target ++ (names ++ [name])))
    (hcopy : copyBelow source target fuel above (source.below (names ++ [name])) here c =
      (.ok n, d)) : Filling here source target names c remaining d := by
  have hnames' := isName_of_mem_concat hnames hname
  have hg : c.Grows d := (copyBelow_grows _ _ _ _ _).of_eq hcopy
  have hoff : ∀ x ∈ [goal here target ++ (names ++ [name])], ¬ goal here source <+: x := by
    simpa using (h.beside.right (names ++ [name])).1
  obtain ⟨hd, hlaid⟩ := copyBelow_patched h.beside h.steps_ne_nil fuel above hnames' h.plain
    h.atHome (.below hnames' hpaved) hoff hcopy
  have hbeside : Beside (goal here source) (goal here target ++ (names ++ [name])) :=
    h.beside.right _
  have hunder := hlaid.under_eq hbeside hoff
  refine ⟨h.of_grows hd hg hunder, hclash.of_laid hunder hsome hlaid, hunder,
    fun x hx => hg.directory (hpaved x hx), fun other hother => ?_⟩
  have hne : other ≠ name := fun heq => hfirst (heq ▸ hother)
  exact (Yielding.iff_of_laid h.beside hne hlaid).2 (hyields other hother)

omit hclash in
/-- A file of the tree is copied where its directory is there, it can be read to its end and a file
may be written in its place. -/
theorem copyFile_of_tree {last : String} {content : Bytes} {mode : Mode} (hname : IsName last)
    (hfile : c.get? (goal here source ++ (names ++ [last])) = some (.file content mode))
    (hwhole : Access.Whole content mode)
    (hplace : c.Writable (goal here target ++ (names ++ [last])))
    (hpaved : ∀ x ∈ stops here (target.below names), c.get? x = some .directory) :
    ∃ d, copyFile (source.below (names ++ [last])) (target.join (ofNames (names ++ [last]))) here
      c = (.ok (), d) := by
  have hnames' := isName_of_mem_concat hnames hname
  have hfits := (h.limits _ (by rw [hfile]; rfl)).2
  have hgoal : goal here (target.below names) = goal here target ++ names := goal_below hnames
  rw [join_ofNames target hnames' (by simp)] at hfits ⊢
  rw [below_append] at hfits
  rw [show target.below (names ++ [last]) = target.below names / last from below_append names last]
  rw [← List.append_assoc, ← hgoal] at hplace
  have hparent : ensureParent (target.below names / last) here c = (.ok (), c) := by
    rw [ensureParent]
    cases hq : (target.below names / last).parent? with
    | none => rfl
    | some q =>
      refine ensureDir_of_stops h.plain (hfits.of_begins (begins_of_parent? hq)) fun x hx => ?_
      exact hpaved x (mem_stops_of_begins (begins_of_parent?_div hname hq) hx)
  obtain ⟨t, ht, hloc⟩ : ∃ t, c.resolve here .makeFile (target.below names / last) = .ok t ∧
      t.loc = goal here (target.below names) ++ [last] := by
    rw [resolve_div h.plain hname hfits hpaved hplace.ne_directory]
    split
    · exact ⟨_, rfl, rfl⟩
    · exact ⟨_, rfl, rfl⟩
  obtain ⟨d, hcopy⟩ := Access.copyFile_succeeds h.atHome
    (locate_eq_ok_iff.2 (h.resolve_file hnames' hfile)) hfile hwhole ht (hloc ▸ hplace)
  refine ⟨d, ?_⟩
  rw [copyFile, bind_apply_ok hparent, mapError_eq_ok_iff]
  exact hcopy

theorem copyBelow_of_file (fuel : Nat) (above : Trail) {last : String} (hname : IsName last)
    (hsome : (c.get? (goal here source ++ (names ++ [last]))).isSome)
    (hdir : c.get? (goal here source ++ (names ++ [last])) ≠ some .directory)
    (hyields : c.Yielding (goal here source ++ (names ++ [last]))
      (goal here target ++ (names ++ [last])))
    (hpaved : ∀ x ∈ stops here (target.below names), c.get? x = some .directory) :
    ∃ d, copyBelow source target (fuel + 1) above (source.below (names ++ [last])) here c =
      (.ok (c.filesBelow (goal here source ++ (names ++ [last]))).card, d) := by
  obtain ⟨content, mode, hfile⟩ : ∃ content mode,
      c.get? (goal here source ++ (names ++ [last])) = some (.file content mode) := by
    obtain ⟨e, he⟩ := Option.isSome_iff_exists.1 hsome
    cases e with
    | file content mode => exact ⟨content, mode, he⟩
    | directory => exact absurd he hdir
    | link target => exact absurd he (h.plain.linkless _ _)
  have hnames' := isName_of_mem_concat hnames hname
  have hwhole := (yieldsAt_iff.1 (hyields []) content mode (by rwa [List.append_nil])).1
  have hplace : c.Writable (goal here target ++ (names ++ [last])) :=
    hyields.writable (hclash.append _) (h.plain.linkless _) hfile
  obtain ⟨d, hcopy⟩ := copyFile_of_tree h hnames hname hfile hwhole hplace hpaved
  refine ⟨d, ?_⟩
  rw [copyBelow_file h.steps_ne_nil hnames' (follow_eq h.plain (h.resolve_file hnames' hfile)) hdir
    hcopy, filesBelow_of_file hfile, Finset.card_singleton]

end Turns

/-- A copy beside its source comes to its end where nothing is in its way, and has counted the
files. -/
theorem copyBelow_succeeds (fuel : Nat) (above : Trail) (h : Overlayable here source target c)
    (hclash : c.Clashless (goal here source) (goal here target))
    (hyields : c.Yielding (goal here source ++ names) (goal here target ++ names))
    (hnames : ∀ name ∈ names, IsName name) (hsome : (c.get? (goal here source ++ names)).isSome)
    (hfuel : maxDepth ≤ fuel + names.length)
    (hroot : names = [] → ∀ x ∈ stops here target, c.file? x = none)
    (hpaved : ∀ init last, names = init ++ [last] →
      ∀ x ∈ stops here (target.below init), c.get? x = some .directory) :
    ∃ d, copyBelow source target fuel above (source.below names) here c =
      (.ok (c.filesBelow (goal here source ++ names)).card, d) := by
  induction fuel generalizing above names c with
  | zero =>
    -- so many names make a path too long
    have hshort := (h.limits names hsome).1.short
    have hlength := length_le_size_below source hnames
    rw [pathFits, decide_eq_true_eq] at hshort
    rw [maxDepth] at hfuel
    omega
  | succ fuel ih =>
    by_cases hdir : c.get? (goal here source ++ names) = some .directory
    · obtain ⟨c', hensure⟩ := ensureDir_succeeds h.plain h.atHome
        (h.makeable hclash hnames hdir hroot hpaved)
      rw [copyBelow_directory h.steps_ne_nil hnames
        (follow_eq h.plain (h.resolve_directory hnames hdir (by simp))) hdir
        (list_eq (h.resolve_directory hnames hdir (by simp)) hdir) hensure, card_filesBelow hdir]
      -- a turn counts on the disk that it finds, where the tree is still what it was at first
      have hturn : ∀ name rest, name :: rest <:+ c.names (goal here source ++ names) → ∀ c₁,
          Filling here source target names c (name :: rest) c₁ →
          ∃ d, copyBelow source target fuel
              ((source.below names, goal here source ++ names) :: above)
              (source.below (names ++ [name])) here c₁ =
                (.ok (c.filesBelow (goal here source ++ names ++ [name])).card, d) ∧
            Filling here source target names c rest d := by
        rintro name rest hsuffix c₁ ⟨h₁, hclash₁, hkept₁, hpaved₁, hyields₁⟩
        have hlisted := hsuffix.subset List.mem_cons_self
        have hname := h.plain.isName_of_mem_names hlisted
        obtain ⟨hfirst, -⟩ := List.nodup_cons.1 ((names_nodup _ _).sublist hsuffix.sublist)
        obtain ⟨hyield, hyields₁⟩ := List.forall_mem_cons.1 hyields₁
        have hsame (rest : Location) :
            c₁.get? (goal here source ++ rest) = c.get? (goal here source ++ rest) :=
          congrFun hkept₁ rest
        have hsome₁ : (c₁.get? (goal here source ++ (names ++ [name]))).isSome := by
          rw [hsame, ← List.append_assoc]
          exact (c.mem_names_iff _ name).1 hlisted
        have hcount : c₁.filesBelow (goal here source ++ (names ++ [name])) =
            c.filesBelow (goal here source ++ (names ++ [name])) := by
          refine filesBelow_congr fun rest => file?_congr ?_
          rw [List.append_assoc, hsame]
        obtain ⟨d, hcopy⟩ := ih ((source.below names, goal here source ++ names) :: above) h₁
          hclash₁ hyield (isName_of_mem_concat hnames hname) hsome₁
          (by rw [List.length_append, List.length_singleton]; omega) (by simp)
          (fun init last heq => (List.append_inj' heq rfl).1 ▸ hpaved₁)
        obtain ⟨hd, hclash', hkept', hpaved', hyields'⟩ :=
          filling_of_copyBelow h₁ hclash₁ hnames hname hfirst hsome₁ hpaved₁ hyields₁ hcopy
        refine ⟨d, ?_, hd, hclash', hkept'.trans hkept₁, hpaved', hyields'⟩
        rw [hcopy, hcount, List.append_assoc]
      exact sumNames_succeeds hturn
        (filling_of_ensureDir h hclash hnames hdir hyields hensure _)
    · rcases List.eq_nil_or_concat names with rfl | ⟨init, last, rfl⟩
      · rw [List.append_nil] at hdir
        exact absurd h.get?_source hdir
      · rw [List.concat_eq_append] at hnames hsome hpaved hdir hyields ⊢
        have hinit : ∀ name ∈ init, IsName name := fun name hname => hnames name (by simp [hname])
        exact copyBelow_of_file h hclash hinit fuel above (hnames last (by simp)) hsome hdir
          hyields (hpaved init last rfl)

theorem copyTree_succeeds (h : Overlayable here source target c)
    (hroute : ∀ x ∈ stops here target, c.file? x = none)
    (hclash : c.Clashless (goal here source) (goal here target))
    (hyields : c.Yielding (goal here source) (goal here target)) :
    ∃ d, copyTree source target here c = (.ok (c.filesBelow (goal here source)).card, d) := by
  have hnone : ∀ name ∈ [], IsName name := by simp
  have htop : (c.get? (goal here source ++ [])).isSome := by
    rw [List.append_nil, h.get?_source]
    rfl
  obtain ⟨d, hcopy⟩ := copyBelow_succeeds maxDepth [] h hclash (hyields.append []) hnone htop
    (Nat.le_refl _) (fun _ => hroute) (by simp)
  rw [List.append_nil] at hcopy
  exact ⟨d, (copyTree_apply h.isDir).trans hcopy⟩

end Files

end GemStaging
