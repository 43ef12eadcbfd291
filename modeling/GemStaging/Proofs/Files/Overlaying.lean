import GemStaging.Proofs.Files.Laying

/-!
Copying a directory beside itself, exactly. Where the directory and the target of the copy lie
beside one another, the copy succeeds if and only if no file stands on the way to the target,
nothing has to change its kind, and each file can be read to its end and written where it comes to;
then the directory is laid over what stands at the target, and its files were counted. Where the
copy fails, it has written to no file but those that it was to replace (`Files.copyTree_overlay`).
-/

namespace GemStaging

open Effect Disk GemStaging.Path

variable {here : Location} {source target : Path} {names : List String} {b c d : Disk}

namespace Disk

/-- The tree at one place was laid over what stood at another one, and the places on the way are
directories. Nothing else has changed, and the tree that was taken has not. -/
structure Overlays (here : Location) (source target : Path) (c d : Disk) : Prop where
  laid : ∀ rel e, c.get? (goal here source ++ rel) = some e →
    d.get? (goal here target ++ rel) = some e
  beneath : ∀ rel, c.get? (goal here source ++ rel) = none →
    d.get? (goal here target ++ rel) = c.get? (goal here target ++ rel)
  outside : ∀ loc, ¬ goal here target <+: loc →
    d.get? loc = if loc ∈ stops here target then some .directory else c.get? loc
  kept : d.under (goal here source) = c.under (goal here source)

/-- The places that a copy has to make directories: the target itself, and what is missing on the
way to it. -/
def waysTo (here : Location) (target : Path) (c : Disk) : List Location :=
  (stops here target).filter (fun x => c.get? x ≠ some .directory) ++ [goal here target]

theorem mem_waysTo_iff {x : Location} :
    x ∈ waysTo here target c ↔
      x ∈ stops here target ∧ c.get? x ≠ some .directory ∨ x = goal here target := by
  simp [waysTo]

namespace Overlayable
variable (h : Overlayable here source target c)
include h

theorem eq_goal_of_mem_waysTo {x : Location} (hx : x ∈ waysTo here target c)
    (hbelow : goal here source <+: x ∨ goal here target <+: x) : x = goal here target := by
  rcases mem_waysTo_iff.1 hx with ⟨hstop, hdir⟩ | heq
  · by_contra hne
    exact hdir (h.passed x hstop hne hbelow)
  · exact heq

theorem not_prefix_of_mem_waysTo {x : Location} (hx : x ∈ waysTo here target c) :
    ¬ goal here source <+: x := by
  intro hbelow
  rw [h.eq_goal_of_mem_waysTo hx (.inl hbelow)] at hbelow
  exact h.beside.1 hbelow

theorem paves : Paves c (stops here target) (goal here target) (waysTo here target c) where
  onRoute x hx := by
    rcases mem_waysTo_iff.1 hx with ⟨hstop, -⟩ | rfl
    · exact hstop
    · exact goal_mem_stops here target
  atGoal := mem_waysTo_iff.2 (.inr rfl)
  paved x hx := by
    by_cases hdir : c.get? x = some .directory
    · exact .inr hdir
    · exact .inl (mem_waysTo_iff.2 (.inl ⟨hx, hdir⟩))
  straight x hx name hbelow := by
    rw [h.eq_goal_of_mem_waysTo hx (.inr ((List.prefix_append _ _).trans hbelow))] at hbelow
    exact not_append_prefix (List.cons_ne_nil _ _) hbelow

end Overlayable

end Disk

namespace Files

/-- Where a directory was filled beside itself, each file of it yielded from the start: no copy of
an entry brings it about for another one. -/
theorem copyBelow_yields (hbeside : Beside (goal here source) (goal here target))
    (hsteps : source.steps ≠ []) (fuel : Nat) (above : Trail) {ways : List Location} {n : Nat}
    (hnames : ∀ name ∈ names, IsName name) (hc : c.Plain) (hhere : c.get? here = some .directory)
    (hpaves : Paves c (stops here (target.below names)) (goal here target ++ names) ways)
    (hways : ∀ x ∈ ways, ¬ goal here source <+: x)
    (h : copyBelow source target fuel above (source.below names) here c = (.ok n, d)) :
    c.Yielding (goal here source ++ names) (goal here target ++ names) := by
  induction fuel generalizing above names ways n c d with
  | zero => simp [copyBelow] at h
  | succ fuel ih =>
    have hgoal : goal here (target.join (ofNames names)) = goal here target ++ names :=
      goal_join_ofNames hnames
    have hstops : stops here (target.join (ofNames names)) = stops here (target.below names) :=
      stops_join_ofNames hnames
    obtain ⟨hdir, c', trail, hensure, h⟩ | ⟨-, h, -⟩ := copyBelow_cases hsteps hnames hc h
    · have hextends : c.Extends c' := (ensureDir_extends _).of_eq hensure
      obtain ⟨hc', hmade⟩ := ensureDir_patched hc hhere hensure
      rw [hstops] at hmade
      have hpaved : ∀ x ∈ here :: stops here (target.below names), c'.get? x = some .directory := by
        refine List.forall_mem_cons.2 ⟨hextends here _ hhere, fun x hx => ?_⟩
        rw [hmade, Tree.directories, if_pos hx]
        rfl
      have hneeds : ∀ name ∈ c.names (goal here source ++ names),
          c'.Yielding (goal here source ++ (names ++ [name]))
            (goal here target ++ (names ++ [name])) := by
        refine sumNames_needs (Q := fun c => c.Plain ∧
          ∀ x ∈ here :: stops here (target.below names), c.get? x = some .directory)
          (P := fun name c => c.Yielding (goal here source ++ (names ++ [name]))
            (goal here target ++ (names ++ [name])))
          (names_nodup _ _) (fun name hname c₁ k d₁ hinv hcopy => ?_) ⟨hc', hpaved⟩ h
        obtain ⟨hc₁, hpaved₁⟩ := hinv
        have hnames' := isName_of_mem_concat hnames (hc.isName_of_mem_names hname)
        obtain ⟨hhere₁, hroute₁⟩ := List.forall_mem_cons.1 hpaved₁
        have hoff : ∀ x ∈ [goal here target ++ (names ++ [name])], ¬ goal here source <+: x := by
          simpa using (hbeside.right (names ++ [name])).1
        obtain ⟨hd₁, hlaid⟩ := copyBelow_patched hbeside hsteps fuel trail hnames' hc₁ hhere₁
          (.below hnames' hroute₁) hoff hcopy
        have hg : c₁.Grows d₁ := (copyBelow_grows _ _ _ _ _).of_eq hcopy
        refine ⟨⟨hd₁, fun x hx => hg.directory (hpaved₁ x hx)⟩,
          ih trail hnames' hc₁ hhere₁ (.below hnames' hroute₁) hoff hcopy, fun other _ hne => ?_⟩
        exact (Yielding.iff_of_laid hbeside hne.symm hlaid).1
      refine .of_names hdir fun name hname => ?_
      have hyields := (hneeds name hname).of_files (fun _ _ _ hfile => hextends _ _ hfile)
        fun _ _ _ hfile => hextends _ _ hfile
      rwa [← List.append_assoc, ← List.append_assoc] at hyields
    · have hoff : goal here (source.below names) ∉ ways := by
        rw [goal_below hnames]
        exact fun hmem => hways _ hmem (List.prefix_append _ _)
      rw [← hstops, ← hgoal] at hpaves
      obtain ⟨-, ⟨⟨content, mode, hfile, hwhole⟩, hwritable⟩, -⟩ :=
        copyFile_patched hc hhere hpaves hoff h
      rw [goal_below hnames] at hfile
      rw [hgoal] at hwritable
      exact .of_file hfile hwhole hwritable

section Trees
variable (h : Overlayable here source target c)
include h

theorem overlays_of_copyTree {n : Nat} (hcopy : copyTree source target here c = (.ok n, d)) :
    Overlays here source target c d := by
  obtain ⟨-, hlaid⟩ := copyTree_patched h.beside h.plain h.atHome h.paves
    (fun x hx => h.not_prefix_of_mem_waysTo hx) hcopy
  have hway {rel : Location} (hmem : goal here target ++ rel ∈ waysTo here target c) :
      rel = [] := by
    simpa using h.eq_goal_of_mem_waysTo hmem (.inr (List.prefix_append _ _))
  constructor
  · intro rel e he
    rw [hlaid, Tree.atop, Tree.shift_append, under, he]
    rfl
  · intro rel hnone
    have hfree : goal here target ++ rel ∉ waysTo here target c := by
      intro hmem
      obtain rfl := hway hmem
      simp [h.get?_source] at hnone
    rw [hlaid, Tree.atop, Tree.shift_append, under, hnone, Tree.directories, if_neg hfree]
    rfl
  · intro loc hloc
    have hne : loc ≠ goal here target := by
      rintro rfl
      exact hloc (List.prefix_refl _)
    rw [hlaid, Tree.atop, Tree.shift_of_not_below hloc, Tree.directories]
    by_cases hstop : loc ∈ stops here target
    · by_cases hdir : c.get? loc = some .directory <;> simp [mem_waysTo_iff, hdir, hstop, hne]
    · simp [mem_waysTo_iff, hstop, hne]
  · exact hlaid.under_eq h.beside fun x hx => h.not_prefix_of_mem_waysTo hx

theorem yielding_of_copyTree {n : Nat} (hcopy : copyTree source target here c = (.ok n, d)) :
    c.Yielding (goal here source) (goal here target) := by
  obtain ⟨-, hbelow⟩ := copyTree_eq_ok hcopy
  have hnone : ∀ name ∈ [], IsName name := by simp
  have hpaves := h.paves
  rw [← List.append_nil (goal here target)] at hpaves
  have hyields := copyBelow_yields h.beside h.steps_ne_nil maxDepth [] hnone h.plain h.atHome hpaves
    (fun x hx => h.not_prefix_of_mem_waysTo hx) hbelow
  simpa using hyields

/-- Where a copy has succeeded, no file stood on its way and nothing had to change its kind. -/
theorem clashless_of_copyTree {n : Nat} (hcopy : copyTree source target here c = (.ok n, d)) :
    (∀ x ∈ stops here target, c.file? x = none) ∧
      c.Clashless (goal here source) (goal here target) := by
  have hlaid := overlays_of_copyTree h hcopy
  have hg : c.Grows d := (copyTree_grows _ _).of_eq hcopy
  have hfile {loc : Location} (hfile : (c.file? loc).isSome) :
      ∃ content mode, d.get? loc = some (.file content mode) := by
    obtain ⟨content, mode, he⟩ := isSome_file?_iff.1 hfile
    exact hg.file he
  constructor
  · intro x hx
    by_contra hsome
    obtain ⟨content, mode, hd⟩ := hfile (Option.isSome_iff_ne_none.2 hsome)
    by_cases hbelow : goal here target <+: x
    · by_cases hne : x = goal here target
      · have htop := hlaid.laid [] .directory (by rw [List.append_nil, h.get?_source])
        rw [List.append_nil, ← hne, hd] at htop
        cases htop
      · exact not_isSome_file? (h.passed x hx hne (.inr hbelow)) (Option.isSome_iff_ne_none.2 hsome)
    · rw [hlaid.outside x hbelow, if_pos hx] at hd
      cases hd
  · rintro rel (⟨hdir, hsome⟩ | ⟨hsome, hdir⟩)
    · obtain ⟨content, mode, hd⟩ := hfile hsome
      rw [hlaid.laid rel _ hdir] at hd
      cases hd
    · have hd := hg.directory hdir
      obtain ⟨content, mode, he⟩ := isSome_file?_iff.1 hsome
      rw [hlaid.laid rel _ he] at hd
      cases hd

end Trees

end Files

namespace Disk

/-- The disk has come from the first one, and what stands at a place is as it was. -/
structure Holding (source : Location) (b c : Disk) : Prop where
  plain : c.Plain
  grown : b.Grows c
  kept : c.under source = b.under source

/-- While a directory is held, directories are made where nothing stood, and files come to the
places that its entries have below the target; no other file changes. -/
def Replaces (here : Location) (source target : Path) (b c d : Disk) : Prop :=
  Holding (goal here source) b c → Holding (goal here source) b d ∧
    ∀ loc, (∀ rel, (b.get? (goal here source ++ rel)).isSome → loc ≠ goal here target ++ rel) →
      SparedAt loc c d

instance : IsPreorder Disk (Replaces here source target b) where
  refl _ h := ⟨h, fun _ _ => .refl _⟩
  trans _ _ _ h h' hheld := by
    obtain ⟨hheld, hspared⟩ := h hheld
    obtain ⟨hheld, hspared'⟩ := h' hheld
    exact ⟨hheld, fun loc hloc => (hspared loc hloc).trans (hspared' loc hloc)⟩

theorem Overlayable.replaces (h : Overlayable here source target b)
    (hsome : (b.get? (goal here source ++ names)).isSome) (hgrows : c.Grows d)
    (hconfined : Confined (· ∈ stops here (target.below names)) c d)
    (hspares : Spares (· = goal here target ++ names) c d) :
    Replaces here source target b c d := by
  rintro ⟨hc, hg, hkept⟩
  have hunder := (h.of_grows hc hg hkept).under_source (h.isName_of_isSome hsome) hgrows
    (hconfined hc).2
  refine ⟨⟨(hspares hc).1, hg.trans hgrows, hunder.trans hkept⟩, fun loc hloc => ?_⟩
  exact (hspares hc).2 loc (hloc names hsome)

end Disk

namespace Files

/-- Whether it succeeds or fails, a copy holds the directory that it copies, and changes no file
but those in the places of its entries below the target. -/
theorem copyTree_replaces (h : Overlayable here source target b) :
    Replaces here source target b b (copyTree source target here b).2 := by
  have hcopy : Moves (Replaces here source target b) here
      (copyBelow source target maxDepth [] (source.below [])) := by
    refine copyBelow_moves_known (R := Replaces here source target b) (Holding (goal here source) b)
      (fun names => (b.get? (goal here source ++ names)).isSome) h.steps_ne_nil
      (fun _ _ hc hheld => hc hheld hheld) (fun _ hheld => hheld.plain)
      (fun names hsome => h.isName_of_isSome hsome) ?_ ?_ ?_ _ _ ?_
    · intro c names name hheld _ hlisted
      have hsame : c.get? (goal here source ++ (names ++ [name])) =
          b.get? (goal here source ++ (names ++ [name])) := congrFun hheld.kept _
      rw [← hsame, ← List.append_assoc]
      exact (c.mem_names_iff _ name).1 hlisted
    · intro names hsome c
      have hstops : stops here (target.join (ofNames names)) = stops here (target.below names) :=
        stops_join_ofNames (h.isName_of_isSome hsome)
      refine h.replaces hsome (ensureDir_grows _ c) ?_ (ensureDir_spares _ c)
      exact ensureDir_confined (fun x hx => hstops ▸ hx) c
    · intro names hsome c
      have hstops : stops here (target.join (ofNames names)) = stops here (target.below names) :=
        stops_join_ofNames (h.isName_of_isSome hsome)
      refine h.replaces hsome (copyFile_grows _ _ c) ?_ ?_
      · exact copyFile_confined _ (fun x hx => hstops ▸ hx) c
      · exact copyFile_spares _ (goal_join_ofNames (h.isName_of_isSome hsome)) c
    · rw [List.append_nil, h.get?_source]
      rfl
  rw [copyTree_apply h.isDir]
  exact hcopy b

/-- Copying a directory beside itself: when it succeeds, what it has done and counted then, and what
it has left alone when it fails. -/
theorem copyTree_overlay (h : Overlayable here source target c) :
    ((∃ n d, copyTree source target here c = (.ok n, d)) ↔
      (∀ x ∈ stops here target, c.file? x = none) ∧
        c.Clashless (goal here source) (goal here target) ∧
        c.Yielding (goal here source) (goal here target)) ∧
    (∀ n d, copyTree source target here c = (.ok n, d) →
      Overlays here source target c d ∧ n = (c.filesBelow (goal here source)).card) ∧
    ∀ e d, copyTree source target here c = (.error e, d) →
      d.under (goal here source) = c.under (goal here source) ∧
        ∀ loc, (∀ rel, (c.get? (goal here source ++ rel)).isSome → loc ≠ goal here target ++ rel) →
          d.file? loc = c.file? loc := by
  refine ⟨⟨?_, ?_⟩, ?_, ?_⟩
  · rintro ⟨n, d, hcopy⟩
    obtain ⟨hroute, hclash⟩ := clashless_of_copyTree h hcopy
    exact ⟨hroute, hclash, yielding_of_copyTree h hcopy⟩
  · rintro ⟨hroute, hclash, hyields⟩
    obtain ⟨d, hcopy⟩ := copyTree_succeeds h hroute hclash hyields
    exact ⟨_, d, hcopy⟩
  · intro n d hcopy
    obtain ⟨hroute, hclash⟩ := clashless_of_copyTree h hcopy
    obtain ⟨d', hcount⟩ := copyTree_succeeds h hroute hclash (yielding_of_copyTree h hcopy)
    rw [hcopy] at hcount
    exact ⟨overlays_of_copyTree h hcopy, (ok_inj hcount).1⟩
  · intro e d hcopy
    have hreplaces := copyTree_replaces h ⟨h.plain, .refl c, rfl⟩
    rw [hcopy] at hreplaces
    exact ⟨hreplaces.1.kept, fun loc hloc => (hreplaces.2 loc hloc).file?_eq⟩

section Samples

instance (x y : Location) : Decidable (Beside x y) := inferInstanceAs (Decidable (_ ∧ _))

instance (d : Disk) (x y : Location) : Decidable (d.Clash x y) :=
  inferInstanceAs (Decidable (_ ∨ _))

instance (d : Disk) (x y : Location) : Decidable (d.YieldsAt x y) :=
  inferInstanceAs (Decidable (∀ file ∈ d.file? x, _ ∧ ∀ old ∈ d.file? y, _))

theorem clashless_of_entries {x y : Location}
    (h : ∀ k ∈ d.entriesBelow x, ¬ d.Clash k (y ++ k.drop x.length)) : d.Clashless x y := by
  intro rest hclash
  have hsome : (d.get? (x ++ rest)).isSome := by
    rcases hclash with ⟨hdir, -⟩ | ⟨hfile, -⟩
    · simp [hdir]
    · exact isSome_of_file? hfile
  have hnot := h _ (mem_entriesBelow.2 ⟨List.prefix_append x rest, hsome⟩)
  rw [List.drop_left] at hnot
  exact hnot hclash

theorem yielding_of_entries {x y : Location}
    (h : ∀ k ∈ d.entriesBelow x, d.YieldsAt k (y ++ k.drop x.length)) : d.Yielding x y := by
  refine fun rest => yieldsAt_iff.2 fun content mode hfile => ?_
  have hat := h _ (mem_entriesBelow.2 ⟨List.prefix_append x rest, by rw [hfile]; rfl⟩)
  rw [List.drop_left] at hat
  exact yieldsAt_iff.1 hat content mode hfile

theorem limits_of_entries
    (h : ∀ k ∈ c.entriesBelow (goal here source),
      Fits (source.below (k.drop (goal here source).length)) ∧
        Fits (target.join (ofNames (k.drop (goal here source).length)))) (rel : List String)
    (hsome : (c.get? (goal here source ++ rel)).isSome) :
    Fits (source.below rel) ∧ Fits (target.join (ofNames rel)) := by
  have hfits := h _ (mem_entriesBelow.2 ⟨List.prefix_append _ rel, hsome⟩)
  rwa [List.drop_left] at hfits

/-- A directory with two files, and another one that one of them is copied over. -/
def twoTrees : Disk :=
  diskOf [([], "src", .directory), (["src"], "a", .file [65] .program), (["src"], "s", .directory),
    (["src", "s"], "b", .file [66] .data), ([], "out", .directory), (["out"], "a", .file [1] .data),
    (["out"], "k", .file [75] .data)]

theorem copyTree_overlay_sample : ∃ d, copyTree ⟨"src"⟩ ⟨"out"⟩ [] twoTrees = (.ok 2, d) ∧
    Overlays [] ⟨"src"⟩ ⟨"out"⟩ twoTrees d := by
  have h : Overlayable [] ⟨"src"⟩ ⟨"out"⟩ twoTrees :=
    { plain := plain_diskOf (by decide)
      atHome := get?_root _
      isDir := by decide
      beside := by decide
      limits := limits_of_entries (by decide +kernel)
      passed := by decide
      settled := by decide }
  obtain ⟨hiff, hok, -⟩ := copyTree_overlay h
  obtain ⟨n, d, hcopy⟩ := hiff.2
    ⟨by decide, clashless_of_entries (by decide +kernel), yielding_of_entries (by decide +kernel)⟩
  obtain ⟨hlaid, rfl⟩ := hok n d hcopy
  exact ⟨d, hcopy, hlaid⟩

def Unhindered (source target : Path) (c : Disk) : Prop :=
  Separated [] source target c ∧ (∀ x ∈ stops [] target, c.file? x = none) ∧
    c.Clashless (goal [] source) (goal [] target)

def oneFile : Disk := diskOf [([], "src", .directory), (["src"], "x", .file [65] .data)]

def twoFiles (mode old : Mode) : Disk :=
  diskOf [([], "src", .directory), (["src"], "x", .file [65] mode), ([], "out", .directory),
    (["out"], "x", .file [1] old)]

def oneDirectory : Disk := diskOf [([], "src", .directory), (["src"], "sub", .directory)]

theorem unhindered_of_entries (hplain : c.Plain) (hdir : c.isDirAt [] source)
    (hbeside : Beside (goal [] source) (goal [] target))
    (hroute : ∀ x ∈ stops [] target, c.file? x = none)
    (hentries : ∀ k ∈ c.entriesBelow (goal [] source),
      (Fits (source.below (k.drop (goal [] source).length)) ∧
        Fits (target.join (ofNames (k.drop (goal [] source).length)))) ∧
      ¬ c.Clash k (goal [] target ++ k.drop (goal [] source).length)) :
    Unhindered source target c :=
  ⟨⟨hplain, get?_root c, hdir, hbeside, limits_of_entries fun k hk => (hentries k hk).1⟩, hroute,
    clashless_of_entries fun k hk => (hentries k hk).2⟩

/-- Nothing is in the way, and yet: a file that cannot be read to its end is not copied, and one
that may not be written is not replaced; no directory is made for a path that ends in a dot behind
what is missing; making the directories on the way to the target makes one where a file is to come;
and a directory that is made on the way, in the directory that is copied, is copied too. -/
theorem unlaid_samples :
    (Unhindered ⟨"src"⟩ ⟨"out"⟩ (twoFiles ⟨false, true, false⟩ .data) ∧
      (copyTree ⟨"src"⟩ ⟨"out"⟩ [] (twoFiles ⟨false, true, false⟩ .data)).1.isOk = false) ∧
    (Unhindered ⟨"src"⟩ ⟨"out"⟩ (twoFiles .data ⟨false, false, true⟩) ∧
      (copyTree ⟨"src"⟩ ⟨"out"⟩ [] (twoFiles .data ⟨false, false, true⟩)).1.isOk = false) ∧
    (Unhindered ⟨"src"⟩ ⟨"out/."⟩ oneFile ∧
      (copyTree ⟨"src"⟩ ⟨"out/."⟩ [] oneFile).1.isOk = false) ∧
    (Unhindered ⟨"src"⟩ ⟨"out/x/.."⟩ oneFile ∧
      (copyTree ⟨"src"⟩ ⟨"out/x/.."⟩ [] oneFile).1.isOk = false) ∧
    Unhindered ⟨"src"⟩ ⟨"src/sub/x/../../../out"⟩ oneDirectory ∧
      (copyTree ⟨"src"⟩ ⟨"src/sub/x/../../../out"⟩ [] oneDirectory).1 = .ok 0 ∧
      oneDirectory.get? ["src", "sub", "x"] = none ∧
      (copyTree ⟨"src"⟩ ⟨"src/sub/x/../../../out"⟩ [] oneDirectory).2.get? ["out", "sub", "x"] =
        some .directory := by
  refine ⟨⟨?_, ?_⟩, ⟨?_, ?_⟩, ⟨?_, ?_⟩, ⟨?_, ?_⟩, ?_, ?_, ?_, ?_⟩
  · exact unhindered_of_entries (plain_diskOf (by decide)) (by decide) (by decide)
      (by decide +kernel) (by decide +kernel)
  · decide +kernel
  · exact unhindered_of_entries (plain_diskOf (by decide)) (by decide) (by decide)
      (by decide +kernel) (by decide +kernel)
  · decide +kernel
  · exact unhindered_of_entries (plain_diskOf (by decide)) (by decide) (by decide)
      (by decide +kernel) (by decide +kernel)
  · decide +kernel
  · exact unhindered_of_entries (plain_diskOf (by decide)) (by decide) (by decide)
      (by decide +kernel) (by decide +kernel)
  · decide +kernel
  · exact unhindered_of_entries (plain_diskOf (by decide)) (by decide) (by decide)
      (by decide +kernel) (by decide +kernel)
  · decide +kernel
  · decide
  · decide +kernel

end Samples

end Files

end GemStaging
