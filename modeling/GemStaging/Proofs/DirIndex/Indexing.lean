import GemStaging.DirIndex.Writing
import GemStaging.Proofs.DirIndex.Places
import GemStaging.Proofs.Files.Confinement
import GemStaging.Proofs.Files.Walking
import GemStaging.Proofs.Files.Writing
import GemStaging.Proofs.Staging.Growth
import GemStaging.Proofs.Staging.Steps
import GemStaging.Proofs.Text.Ordering

/-!
Indexing a tree on a disk without links. Each directory that no hidden name leads to from the top
gets its index, nothing else changes, and indexing again changes nothing at all
(`DirIndex.generate_indexes`).
-/

namespace GemStaging.DirIndex

open Effect Disk GemStaging.Path

variable {here loc : Location} {p root : Path} {names : List String} {m m' : Machine} {n : Nat}
variable {b c d : Disk} {dirs : Finset Location}

section Steps
variable {fuel : Nat} {own : Bool}

theorem shownDirs_apply (h : d.resolve here .look p = .ok (.entry loc))
    (hdir : d.get? loc = some .directory) :
    shownDirs p here d = (.ok (shownNames d loc), d) := by
  have hlocate : Access.locate p here d = (.ok loc, d) := by
    rw [Access.locate, locate_eq_ok_iff.2 h]
  rw [shownDirs, bind_apply_ok (Files.list_eq h hdir), bind_apply_ok hlocate,
    bind_apply_ok (get_apply here d)]
  simp only [Files.readName_encode]
  rfl

theorem shownDirs_unmoved (p : Path) (d : Disk) : (shownDirs p here d).2 = d := by
  have hmoves : Moves Eq here (shownDirs p) :=
    .bind (Files.list_unmoved p) fun _ => .bind (.still fun _ => rfl) fun _ =>
      .bind .get fun _ => .pure _
  exact (hmoves d).symm

theorem exists_of_shownDirs (h : shownDirs p here c = (.ok names, d)) :
    ∃ loc, c.resolve here .look p = .ok (.entry loc) ∧ c.get? loc = some .directory ∧
      names = shownNames c loc := by
  obtain ⟨listed, c₁, hlist, h⟩ := bind_eq_ok_iff.1 h
  obtain ⟨loc, c₂, hlocate, hlist⟩ := bind_eq_ok_iff.1 hlist
  obtain ⟨hl, rfl⟩ := Prod.mk.inj hlocate
  obtain ⟨disk, c₃, hget, hlist⟩ := bind_eq_ok_iff.1 hlist
  obtain ⟨rfl, rfl⟩ := ok_inj hget
  rw [locate_eq_ok_iff] at hl
  split at hlist
  · rename_i hdir
    have hdir : c.get? loc = some .directory := by simpa [isDirectory] using hdir
    obtain ⟨rfl, rfl⟩ := ok_inj hlist
    have hlocate : Access.locate p here c = (.ok loc, c) := by
      rw [Access.locate, locate_eq_ok_iff.2 hl]
    rw [bind_apply_ok hlocate, bind_apply_ok (get_apply here c)] at h
    simp only [Files.readName_encode] at h
    exact ⟨loc, hl, hdir, (ok_inj h).1.symm⟩
  · cases (Prod.mk.inj hlist).1

theorem attempt_shownDirs_apply (p : Path) (m : Machine) :
    (liftM ((shownDirs p).attempt : Files _) : Work _) here m =
      (.ok (shownDirs p here m.disk).1, m) := by
  rw [Files.lift_apply, attempt_apply, shownDirs_unmoved]

theorem listNames_lift_apply (p : Path) (m : Machine) :
    (liftM (Files.listNames p) : Work _) here m = (.ok (m.disk.namesAt here p), m) :=
  Files.lift_eq_ok_iff.2 ⟨m.disk, Files.listNames_apply p m.disk, rfl⟩

theorem disk_of_writeIndex (h : writeIndex p here m = (.ok (), m')) :
    Files.writeText (p / fileName) (render (m.disk.namesAt here p)) here m.disk =
      (.ok (), m'.disk) := by
  rw [writeIndex, bind_apply_ok (listNames_lift_apply p m)] at h
  obtain ⟨⟨⟩, m₁, hlift, hnote⟩ := bind_eq_ok_iff.1 h
  obtain ⟨d, hwrite, rfl⟩ := Files.lift_eq_ok_iff.1 hlift
  rw [hwrite, (Work.note_eq_ok hnote).1]

theorem writeIndex_succeeds
    (h : Files.writeText (p / fileName) (render (m.disk.namesAt here p)) here m.disk =
      (.ok (), d)) : ∃ m', writeIndex p here m = (.ok (), m') ∧ m'.disk = d := by
  rw [writeIndex, bind_apply_ok (listNames_lift_apply p m),
    bind_apply_ok (Files.lift_eq_ok_iff.2 ⟨d, h, rfl⟩)]
  exact ⟨_, rfl, rfl⟩

theorem writeBelow_eq_ok_iff :
    writeBelow (fuel + 1) true p here m = (.ok n, m') ↔
      ∃ names m₁ k, shownDirs p here m.disk = (.ok names, m.disk) ∧
        writeIndex p here m = (.ok (), m₁) ∧
        sumNames (fun name => writeBelow fuel true (p / name)) names here m₁ = (.ok k, m') ∧
        n = 1 + k := by
  rw [writeBelow, bind_apply_ok (attempt_shownDirs_apply p m), if_pos rfl, bind_eq_ok_iff]
  constructor
  · rintro ⟨⟨⟩, m₁, hindex, h⟩
    cases hshown : (shownDirs p here m.disk).1 with
    | error e =>
      rw [hshown] at h
      cases (Prod.mk.inj h).1
    | ok names =>
      rw [hshown] at h
      obtain ⟨k, m₂, hsum, h⟩ := bind_eq_ok_iff.1 h
      obtain ⟨rfl, rfl⟩ := ok_inj h
      exact ⟨names, m₁, k, Prod.ext hshown (shownDirs_unmoved p m.disk), hindex, hsum, rfl⟩
  · rintro ⟨names, m₁, k, hshown, hindex, hsum, rfl⟩
    refine ⟨(), m₁, hindex, ?_⟩
    rw [hshown]
    exact bind_eq_ok_iff.2 ⟨k, m', hsum, rfl⟩

theorem sumNames_cons_eq_ok_iff {f : String → Work Nat} {name : String} :
    sumNames f (name :: names) here m = (.ok n, m') ↔
      ∃ i m₁ k, f name here m = (.ok i, m₁) ∧ sumNames f names here m₁ = (.ok k, m') ∧
        n = i + k := by
  rw [sumNames, bind_eq_ok_iff]
  constructor
  · rintro ⟨i, m₁, hfirst, h⟩
    obtain ⟨k, m₂, hrest, h⟩ := bind_eq_ok_iff.1 h
    obtain ⟨rfl, rfl⟩ := ok_inj h
    exact ⟨i, m₁, k, hfirst, hrest, rfl⟩
  · rintro ⟨i, m₁, k, hfirst, hrest, rfl⟩
    exact ⟨i, m₁, hfirst, bind_eq_ok_iff.2 ⟨k, m', hrest, rfl⟩⟩

/-- Indexing begins at a directory, which gets its own index if the path names it and no link. -/
theorem generate_of_isDirAt (hdir : m.disk.isDirAt here root)
    (hl : m.disk.locateLink here root = .ok loc) :
    generate root here m = writeBelow Files.maxDepth (m.disk.isDirectory loc) root here m := by
  have hthere : (liftM (Access.isDir root : Files Bool) : Work Bool) here m =
      (.ok (m.disk.isDirAt here root), m) := rfl
  rw [generate, bind_apply_ok hthere, if_pos hdir, bind_apply_ok (get_apply here m),
    bind_apply_ok (place_apply here m), hl]

theorem generate_eq_ok_iff :
    generate root here m = (.ok n, m') ↔
      m.disk.isDirAt here root ∧ ∃ loc, m.disk.locateLink here root = .ok loc ∧
        writeBelow Files.maxDepth (m.disk.isDirectory loc) root here m = (.ok n, m') := by
  by_cases hdir : m.disk.isDirAt here root
  · obtain ⟨top, hl, -⟩ := isDirAt_iff.1 hdir
    obtain ⟨loc, hlink⟩ := exists_lookAtLink hl
    have hlink := locateLink_eq_ok_iff.2 hlink
    simp [generate_of_isDirAt hdir hlink, hdir, hlink]
  · have hthere : (liftM (Access.isDir root : Files Bool) : Work Bool) here m =
        (.ok (m.disk.isDirAt here root), m) := rfl
    rw [generate, bind_apply_ok hthere, if_neg hdir]
    simp [hdir]

theorem writeIndex_grows (p : Path) : Moves (OnDisk Grows) here (writeIndex p) :=
  .bind (Files.lift_moves (.still fun d => by rw [Files.listNames_apply])) fun _ =>
    .bind (Files.lift_moves (Files.writeText_grows _ _)) fun _ => Work.note_moves _ _ _ _

theorem sumNames_moves {R : Machine → Machine → Prop} [IsPreorder Machine R]
    {f : String → Work Nat} (h : ∀ name, Moves R here (f name)) (names : List String) :
    Moves R here (sumNames f names) := by
  induction names with
  | nil => exact .pure 0
  | cons name rest ih => exact .bind (h name) fun _ => .bind ih fun _ => .pure _

theorem writeBelow_grows (fuel : Nat) (own : Bool) (p : Path) :
    Moves (OnDisk Grows) here (writeBelow fuel own p) := by
  induction fuel generalizing own p with
  | zero => exact .fail _
  | succ fuel ih =>
    have hrest (own : Bool) (names : List String) := Moves.bind (R := OnDisk Grows)
      (sumNames_moves (fun name => ih true (p / name)) names) fun k => .pure (own.toNat + k)
    cases own with
    | true =>
      refine .bind (Files.lift_moves (.still (shownDirs_unmoved p))) fun shown =>
        .bind (writeIndex_grows p) fun _ => ?_
      cases shown with
      | error e => exact .fail _
      | ok names => exact hrest true names
    | false =>
      refine .bind (Files.lift_moves (.still (shownDirs_unmoved p))) fun shown => ?_
      cases shown with
      | error e => exact .fail _
      | ok names => exact hrest false names

end Steps

section Plain

theorem indexed_of_writeIndex (hc : m.disk.Plain) (hhere : m.disk.get? here = some .directory)
    (hl : m.disk.resolve here .look p = .ok (.entry loc))
    (hdir : m.disk.get? loc = some .directory) (h : writeIndex p here m = (.ok (), m')) :
    Indexed {loc} m.disk m'.disk ∧
      m'.disk.resolve here .makeFile (p / fileName) = .ok (.entry (loc ++ [fileName])) := by
  have hnames : m.disk.namesAt here p = m.disk.names loc := by
    rw [namesAt, locate_eq_ok_iff.2 hl]
  have hwrite := disk_of_writeIndex h
  rw [Files.writeText_div isName_fileName (isDirAt_iff.2 ⟨loc, hl, hdir⟩), mapError_eq_ok_iff,
    hnames] at hwrite
  obtain ⟨place, hwrote⟩ := Access.exists_wrote hhere hwrite
  obtain ⟨t, ht, htloc⟩ := hwrote.led
  have hplace : place = loc ++ [fileName] := by
    rw [← htloc, hc.loc_of_resolve ht, goal_div isName_fileName, ← hc.loc_of_resolve hl]
    rfl
  subst hplace
  refine ⟨⟨?_, ?_, ?_, ?_⟩, hwrote.leads⟩
  · simpa using hwrote.takes
  · simpa using hwrote.fits
  · simpa using hwrote.file
  · intro k hk
    exact hwrote.others k (hk loc (Finset.mem_singleton_self loc))

theorem writeIndex_again {mode : Mode} (hmode : mode.Steady)
    (hfits : (Text.encode (render (m.disk.names loc))).length ≤ Access.maxFile)
    (hl : m.disk.resolve here .look p = .ok (.entry loc))
    (hdir : m.disk.get? loc = some .directory)
    (hindex : m.disk.resolve here .makeFile (p / fileName) = .ok (.entry (loc ++ [fileName])))
    (hfile : m.disk.get? (loc ++ [fileName]) =
      some (.file (Text.encode (render (m.disk.names loc))) mode)) :
    ∃ m', writeIndex p here m = (.ok (), m') ∧ m'.disk = m.disk := by
  have hnames : m.disk.namesAt here p = m.disk.names loc := by
    rw [namesAt, locate_eq_ok_iff.2 hl]
  refine writeIndex_succeeds ?_
  rw [Files.writeText_div isName_fileName (isDirAt_iff.2 ⟨loc, hl, hdir⟩), mapError_eq_ok_iff,
    hnames]
  exact Access.writeFile_again hfits hmode hindex hfile

theorem indexed_of_sumNames {f : String → Work Nat} {below : String → Finset Location}
    (hturn : ∀ name ∈ names, ∀ (dirs : Finset Location) (m m' : Machine) (n : Nat),
      Indexed dirs b m.disk → f name here m = (.ok n, m') →
        Indexed (dirs ∪ below name) b m'.disk ∧ n = (below name).card)
    (hm : Indexed dirs b m.disk) (h : sumNames f names here m = (.ok n, m')) :
    Indexed (dirs ∪ names.toFinset.biUnion below) b m'.disk ∧
      n = (names.map fun name => (below name).card).sum := by
  induction names generalizing dirs m n with
  | nil =>
    obtain ⟨rfl, rfl⟩ := ok_inj h
    simpa using hm
  | cons name rest ih =>
    obtain ⟨hname, hrest⟩ := List.forall_mem_cons.1 hturn
    obtain ⟨i, m₁, k, hfirst, hmore, rfl⟩ := sumNames_cons_eq_ok_iff.1 h
    obtain ⟨hm₁, rfl⟩ := hname dirs m m₁ i hm hfirst
    obtain ⟨hm', rfl⟩ := ih hrest hm₁ hmore
    refine ⟨?_, by simp⟩
    rwa [List.toFinset_cons, Finset.biUnion_insert, ← Finset.union_assoc]

theorem sumNames_again {f : String → Work Nat} {inv : Machine → Prop}
    (hturn : ∀ name ∈ names, ∀ m m' n, inv m → f name here m = (.ok n, m') →
      inv m' ∧ (m'.disk.Grows d → ∀ w : Machine, w.disk = d →
        ∃ w', f name here w = (.ok n, w') ∧ w'.disk = d))
    (hgrows : ∀ name, Moves (OnDisk Grows) here (f name)) (hm : inv m)
    (h : sumNames f names here m = (.ok n, m')) (hg : m'.disk.Grows d) (w : Machine)
    (hw : w.disk = d) : ∃ w', sumNames f names here w = (.ok n, w') ∧ w'.disk = d := by
  induction names generalizing m n w with
  | nil =>
    obtain ⟨rfl, -⟩ := ok_inj h
    exact ⟨w, rfl, hw⟩
  | cons name rest ih =>
    obtain ⟨hname, hrest⟩ := List.forall_mem_cons.1 hturn
    obtain ⟨i, m₁, k, hfirst, hmore, rfl⟩ := sumNames_cons_eq_ok_iff.1 h
    obtain ⟨hm₁, hrepeat⟩ := hname m m₁ i hm hfirst
    have hg₁ : m₁.disk.Grows d := .trans ((sumNames_moves hgrows rest).of_eq hmore) hg
    obtain ⟨w₁, hfirstw, hw₁⟩ := hrepeat hg₁ w hw
    obtain ⟨w', hmorew, hw'⟩ := ih hrest hm₁ hmore w₁ hw₁
    exact ⟨w', sumNames_cons_eq_ok_iff.2 ⟨i, w₁, k, hfirstw, hmorew, rfl⟩, hw'⟩

variable (hb : b.Plain) (hhere : b.get? here = some .directory)
include hb hhere

/-- Where a tree was indexed on the way, the directories that are shown in it have their index, and
they are as many as was counted. -/
theorem indexed_of_writeBelow (fuel : Nat) (hm : Indexed dirs b m.disk)
    (h : writeBelow fuel true p here m = (.ok n, m')) :
    Indexed (dirs ∪ shownBelow b (goal here p)) b m'.disk ∧
      n = (shownBelow b (goal here p)).card := by
  induction fuel generalizing p dirs m m' n with
  | zero => cases (Prod.mk.inj h).1
  | succ fuel ih =>
    obtain ⟨names, m₁, k, hshown, hindex, hsum, rfl⟩ := writeBelow_eq_ok_iff.1 h
    obtain ⟨loc, hl, hdir, rfl⟩ := exists_of_shownDirs hshown
    obtain rfl : loc = goal here p := (hm.plain hb).loc_of_resolve hl
    have hm₁ := hm.trans
      (indexed_of_writeIndex (hm.plain hb) (hm.directory_iff.2 hhere) hl hdir hindex).1
    have hdir := hm.directory_iff.1 hdir
    rw [hm.shownNames_eq] at hsum
    have hnames : ∀ name ∈ shownNames b (goal here p), IsName name := fun name hname =>
      hb.named _ _ (by rw [(mem_shownNames.1 hname).2]; rfl)
    have hturn : ∀ name ∈ shownNames b (goal here p), ∀ dirs m m' n, Indexed dirs b m.disk →
        writeBelow fuel true (p / name) here m = (.ok n, m') →
          Indexed (dirs ∪ shownBelow b (goal here p ++ [name])) b m'.disk ∧
            n = (shownBelow b (goal here p ++ [name])).card := by
      intro name hname dirs m m' n hm h
      have hbelow := ih (p := p / name) hm h
      rwa [goal_div (hnames name hname)] at hbelow
    obtain ⟨hm', rfl⟩ := indexed_of_sumNames hturn hm₁ hsum
    refine ⟨?_, (card_shownBelow hdir).symm⟩
    rwa [shownBelow_eq hdir, Finset.insert_eq, ← Finset.union_assoc]

/-- Indexing a tree again, when the indexes in it are what they were made, changes nothing. -/
theorem writeBelow_again {all : Finset Location} (fuel : Nat) (hm : Indexed dirs b m.disk)
    (h : writeBelow fuel true p here m = (.ok n, m')) (hd : Indexed all b d)
    (hg : m'.disk.Grows d) (hall : shownBelow b (goal here p) ⊆ all) :
    ∀ w : Machine, w.disk = d →
      ∃ w', writeBelow fuel true p here w = (.ok n, w') ∧ w'.disk = d := by
  induction fuel generalizing p dirs m m' n with
  | zero => cases (Prod.mk.inj h).1
  | succ fuel ih =>
    rintro w rfl
    obtain ⟨names, m₁, k, hshown, hindex, hsum, rfl⟩ := writeBelow_eq_ok_iff.1 h
    obtain ⟨loc, hl, hdir, rfl⟩ := exists_of_shownDirs hshown
    obtain rfl : loc = goal here p := (hm.plain hb).loc_of_resolve hl
    obtain ⟨hindexed, hleads⟩ :=
      indexed_of_writeIndex (hm.plain hb) (hm.directory_iff.2 hhere) hl hdir hindex
    have hg₁ : m₁.disk.Grows w.disk :=
      .trans ((sumNames_moves (fun name => writeBelow_grows fuel true (p / name)) _).of_eq hsum) hg
    have hgm : m.disk.Grows w.disk := hindexed.grows.trans hg₁
    -- the directory is found and listed as before, and its index is there
    have hlw := hgm.arrives (.inl rfl) rfl hl (.inl (hgm.directory hdir))
    have hshownw := shownDirs_apply hlw (hgm.directory hdir)
    have hdirb := hm.directory_iff.1 hdir
    have hdone := hall (self_mem_shownBelow hdirb)
    have hfits := hd.fits _ hdone
    obtain ⟨mode, hmode, hfile⟩ := hd.index _ hdone
    rw [← hd.render_names] at hfits hfile
    have hleadsw := hg₁.arrives (.inr rfl) rfl hleads (.inr ⟨⟨_, mode, hfile⟩, .inl rfl⟩)
    obtain ⟨w₁, hindexw, hw₁⟩ := writeIndex_again hmode hfits hlw (hgm.directory hdir) hleadsw hfile
    rw [hd.shownNames_eq] at hshownw
    rw [hm.shownNames_eq] at hsum
    have hturn : ∀ name ∈ shownNames b (goal here p), ∀ m m' n,
        (∃ dirs, Indexed dirs b m.disk) → writeBelow fuel true (p / name) here m = (.ok n, m') →
          (∃ dirs, Indexed dirs b m'.disk) ∧
            (m'.disk.Grows w.disk → ∀ v : Machine, v.disk = w.disk →
              ∃ v', writeBelow fuel true (p / name) here v = (.ok n, v') ∧ v'.disk = w.disk) := by
      rintro name hname m m' n ⟨dirs, hm⟩ h
      refine ⟨⟨_, (indexed_of_writeBelow hb hhere fuel hm h).1⟩, fun hg => ih hm h hg ?_⟩
      have hisName : IsName name := hb.named _ _ (by rw [(mem_shownNames.1 hname).2]; rfl)
      refine .trans (fun dir hdir => ?_) hall
      rw [goal_div hisName] at hdir
      rw [shownBelow_eq hdirb]
      exact Finset.mem_insert_of_mem
        (Finset.mem_biUnion.2 ⟨name, List.mem_toFinset.2 hname, hdir⟩)
    obtain ⟨w', hsumw, hw'⟩ := sumNames_again hturn
      (fun name => writeBelow_grows fuel true (p / name)) ⟨_, hm.trans hindexed⟩ hsum hg w₁ hw₁
    exact ⟨w', writeBelow_eq_ok_iff.2 ⟨_, w₁, k, hshownw, hindexw, hsumw, rfl⟩, hw'⟩

end Plain

/-- What stands in an index: a dot, and then the names that are not hidden, in the order of their
bytes. -/
theorem exists_names_of_render (d : Disk) (dir : Location) :
    ∃ names, (names.map Text.encode).Pairwise (· < ·) ∧
      (∀ name, name ∈ names ↔ isHidden name = false ∧ (d.get? (dir ++ [name])).isSome) ∧
      render (d.names dir) = String.join (("." :: names).map (· ++ "\n")) := by
  have hascending := names_ascending d dir
  have hvisible := visible_of_ascending hascending
  refine ⟨visible (d.names dir), ?_, fun name => ?_, rfl⟩
  · rw [hvisible, List.pairwise_map]
    exact (hascending.filter _).imp Text.encode_lt_encode_iff.2
  · simp [hvisible, mem_names_iff, and_comm]

/-- Indexing a directory writes one index into each directory that no hidden name leads to from it.
An index lists the directory's names that are not hidden, in the order of their bytes. Nothing else
changes, and indexing again changes nothing. -/
theorem generate_indexes (hplain : m.disk.Plain) (hhere : m.disk.get? here = some .directory)
    (h : generate root here m = (.ok n, m')) :
    ∃ indexed : Finset Location,
      (∀ dir, dir ∈ indexed ↔ ∃ rel, dir = goal here root ++ rel ∧
        m.disk.get? dir = some .directory ∧ ∀ name ∈ rel, isHidden name = false) ∧
      goal here root ∈ indexed ∧ n = indexed.card ∧
      (∀ dir ∈ indexed, ∃ names mode, (names.map Text.encode).Pairwise (· < ·) ∧
        (∀ name, name ∈ names ↔ isHidden name = false ∧ (m'.disk.get? (dir ++ [name])).isSome) ∧
        m'.disk.get? (dir ++ [fileName]) =
          some (.file (Text.encode (String.join (("." :: names).map (· ++ "\n")))) mode)) ∧
      (∀ loc, (∀ dir ∈ indexed, loc ≠ dir ++ [fileName]) →
        m'.disk.get? loc = m.disk.get? loc) ∧
      ∀ w : Machine, w.disk = m'.disk →
        ∃ w', generate root here w = (.ok n, w') ∧ w'.disk = m'.disk := by
  obtain ⟨hisDir, loc, hlink, hwrite⟩ := generate_eq_ok_iff.1 h
  obtain ⟨top, hl, hdir⟩ := isDirAt_iff.1 hisDir
  obtain rfl : top = goal here root := hplain.loc_of_resolve hl
  have hgoal : loc = goal here root := hplain.loc_of_resolve (locateLink_eq_ok_iff.1 hlink)
  have hown : m.disk.isDirectory loc = true := by simp [isDirectory, hgoal, hdir]
  rw [hown] at hwrite
  obtain ⟨hindexed, hcount⟩ :=
    indexed_of_writeBelow hplain hhere Files.maxDepth (.refl m.disk) hwrite
  rw [Finset.empty_union] at hindexed
  refine ⟨shownBelow m.disk (goal here root), fun dir => mem_shownBelow, self_mem_shownBelow hdir,
    hcount, fun dir hmem => ?_, hindexed.others, ?_⟩
  · obtain ⟨mode, -, hfile⟩ := hindexed.index dir hmem
    obtain ⟨names, hascending, hnames, htext⟩ := exists_names_of_render m'.disk dir
    rw [← hindexed.render_names, htext] at hfile
    exact ⟨names, mode, hascending, hnames, hfile⟩
  · intro w hw
    have hg := hindexed.grows
    have hstops : ∀ x ∈ stops here root, m.disk.get? x = m'.disk.get? x := by
      intro x hx
      have hx : m.disk.get? x = some .directory := by
        rcases hplain.directory_of_resolve hhere hl x hx with hx | rfl
        · exact hx
        · exact hdir
      rw [hx, hg.directory hx]
    have hlinkw : w.disk.locateLink here root = .ok loc := by
      rw [locateLink_eq_ok_iff, hw, ← hplain.resolve_congr hstops, ← locateLink_eq_ok_iff, hlink]
    have hownw : w.disk.isDirectory loc = true := by
      simp [isDirectory, hw, hgoal, hg.directory hdir]
    obtain ⟨w', hagain, hw'⟩ := writeBelow_again hplain hhere Files.maxDepth (.refl m.disk) hwrite
      hindexed (.refl _) (Finset.Subset.refl _) w hw
    refine ⟨w', generate_eq_ok_iff.2 ⟨?_, loc, hlinkw, ?_⟩, hw'⟩
    · rw [hw]
      exact hg.isDirAt hisDir
    · rwa [hownw]

/-- A tree with a hidden directory, a file, and an index from before. -/
def sampleTree : Disk :=
  diskOf [([], "r", .directory), (["r"], "b", .file [66] .data), (["r"], "a", .directory),
    (["r", "a"], ".h", .directory), (["r", "a", ".h"], "d", .directory),
    (["r", "a"], ".jrubydir", .file [79] .data)]

theorem writeIndex_of_text {text : String} (hnames : render (m.disk.namesAt here p) = text)
    (h : (Files.writeText (p / fileName) text here m.disk).1 = .ok ()) :
    ∃ m', writeIndex p here m = (.ok (), m') ∧
      m'.disk = (Files.writeText (p / fileName) text here m.disk).2 :=
  writeIndex_succeeds (by rw [hnames]; exact Prod.ext h rfl)

theorem generate_sampleTree : ∃ m', generate ⟨"r"⟩ [] { disk := sampleTree } = (.ok 2, m') := by
  have hshown {p : Path} {d : Disk} {names : List String}
      (h : (shownDirs p [] d).1 = .ok names) : shownDirs p [] d = (.ok names, d) :=
    Prod.ext h (shownDirs_unmoved p d)
  have htop : render (sampleTree.namesAt [] ⟨"r"⟩) = ".\na\nb\n" := by
    have hnames : sampleTree.namesAt [] ⟨"r"⟩ = ["a", "b"] := by decide +kernel
    rw [hnames, render, visible_of_ascending (by decide +kernel)]
    decide +kernel
  obtain ⟨m₁, hindex, hm₁⟩ :=
    writeIndex_of_text (m := { disk := sampleTree }) htop (by decide +kernel)
  have hempty : render (m₁.disk.namesAt [] (Path.mk "r" / "a")) = ".\n" := by
    rw [hm₁]
    decide +kernel
  obtain ⟨m₂, hindex', -⟩ := writeIndex_of_text hempty (by rw [hm₁]; decide +kernel)
  have hbelow (fuel : Nat) : writeBelow (fuel + 1) true (Path.mk "r" / "a") [] m₁ = (.ok 1, m₂) :=
    writeBelow_eq_ok_iff.2 ⟨[], m₂, 0, hshown (by rw [hm₁]; decide +kernel), hindex', rfl, rfl⟩
  refine ⟨m₂, generate_eq_ok_iff.2 ⟨by decide +kernel, ["r"], by decide +kernel, ?_⟩⟩
  have hown : sampleTree.isDirectory ["r"] = true := by decide +kernel
  rw [hown]
  exact writeBelow_eq_ok_iff.2 ⟨["a"], m₁, 1, hshown (by decide +kernel), hindex,
    sumNames_cons_eq_ok_iff.2 ⟨1, m₂, 0, hbelow _, rfl, rfl⟩, rfl⟩

theorem generate_indexes_sample :
    ∃ m' names mode, generate ⟨"r"⟩ [] { disk := sampleTree } = (.ok 2, m') ∧
      ("a" ∈ names ∧ "b" ∈ names ∧ ".jrubydir" ∉ names) ∧
      m'.disk.get? ["r", ".jrubydir"] =
        some (.file (Text.encode (String.join (("." :: names).map (· ++ "\n")))) mode) ∧
      m'.disk.get? ["r", "a", ".h", ".jrubydir"] = none ∧
      ∀ w : Machine, w.disk = m'.disk →
        ∃ w', generate ⟨"r"⟩ [] w = (.ok 2, w') ∧ w'.disk = m'.disk := by
  obtain ⟨m', hrun⟩ := generate_sampleTree
  obtain ⟨indexed, hindexed, htop, -, hindex, hothers, hagain⟩ :=
    generate_indexes (plain_diskOf (by decide)) (get?_root sampleTree) hrun
  have hgoal : goal [] ⟨"r"⟩ = ["r"] := by decide
  rw [hgoal] at htop hindexed
  have hkept {loc : Location} {name : String} (hname : name ≠ fileName) :
      m'.disk.get? (loc ++ [name]) = sampleTree.get? (loc ++ [name]) := by
    refine hothers _ fun dir _ heq => hname ?_
    simpa using (List.append_inj' heq rfl).2
  obtain ⟨names, mode, -, hnames, hfile⟩ := hindex _ htop
  refine ⟨m', names, mode, hrun, ⟨?_, ?_, ?_⟩, hfile, ?_, hagain⟩
  · rw [hnames, hkept (by decide)]
    decide +kernel
  · rw [hnames, hkept (by decide)]
    decide +kernel
  · rw [hnames]
    exact fun h => absurd h.1 (by decide)
  · rw [hothers _ fun dir hdir heq => ?_]
    · decide +kernel
    · obtain ⟨rel, rfl, -, hshown⟩ := (hindexed dir).1 hdir
      have hrel : rel ++ [fileName] = ["a", ".h"] ++ [fileName] := by
        simpa [fileName] using heq.symm
      obtain rfl : rel = ["a", ".h"] := (List.append_inj' hrel rfl).1
      exact absurd (hshown ".h" (by simp)) (by decide)

end GemStaging.DirIndex
