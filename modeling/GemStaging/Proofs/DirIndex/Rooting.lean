import GemStaging.Proofs.DirIndex.Indexing
import GemStaging.Proofs.Disk.Approaching

/-!
Indexing a directory through a path that leads to it, over links or not. What is written below the
directory is what is written along the directory's own path, unless the system refuses one of the
two for the length of a path or the number of links (`DirIndex.generate_beside`). The directory
itself gets its index only if the path names it and no link.
-/

namespace GemStaging

open Effect Disk GemStaging.Path

variable {here dir : Location} {p q root : Path} {name : String} {c d : Disk}

namespace DirIndex

variable {α β : Type} {m m' w w' : Machine} {names : List String} {n : Nat}

/-- The system refused a path for its length or for the links on its way. -/
def AtLimit (x : Except Fault α) : Prop :=
  ∃ p e, (e = .nameTooLong ∨ e = .tooManyLinks) ∧
    (x = .error (Files.unwritable p e) ∨ x = .error (Files.walkFault p e))

/-- The same result, or the same refusal at the same place below two paths. -/
inductive Alongside (p q : Path) : Except Fault α → Except Fault α → Prop where
  | ok (x : α) : Alongside p q (.ok x) (.ok x)
  | refused (names : List String) (e : OsError) :
      Alongside p q (.error (Files.unwritable (p.below names) e))
        (.error (Files.unwritable (q.below names) e))

/-- Two runs below two paths come to the same, unless the system refuses one of them. -/
def Beside (p q : Path) (x y : Except Fault α × Machine) : Prop :=
  AtLimit x.1 ∨ AtLimit y.1 ∨ Alongside p q x.1 y.1 ∧ x.2.disk = y.2.disk

namespace Beside

theorem of_div {x y : Except Fault α × Machine} (h : Beside (p / name) (q / name) x y) :
    Beside p q x y := by
  obtain ⟨x, m⟩ := x
  obtain ⟨y, w⟩ := y
  rcases h with hx | hy | ⟨halong, hdisk⟩
  · exact .inl hx
  · exact .inr (.inl hy)
  · refine .inr (.inr ⟨?_, hdisk⟩)
    cases halong with
    | ok x => exact .ok x
    | refused names e => exact .refused (name :: names) e

theorem bind {e e' : Work α} {f f' : α → Work β} (h : Beside p q (e here m) (e' here w))
    (hnext : ∀ x m' w', e here m = (.ok x, m') → e' here w = (.ok x, w') → m'.disk = w'.disk →
      Beside p q (f x here m') (f' x here w')) :
    Beside p q ((e >>= f) here m) ((e' >>= f') here w) := by
  cases hm : e here m with
  | mk x m' =>
    cases hw : e' here w with
    | mk y w' =>
      rw [hm, hw] at h
      rcases h with ⟨r, c, hc, hx⟩ | ⟨r, c, hc, hy⟩ | ⟨halong, hdisk⟩
      · have herror : ((e >>= f) here m).1 = .error (Files.unwritable r c) ∨
            ((e >>= f) here m).1 = .error (Files.walkFault r c) := by
          rcases hx with rfl | rfl <;> rw [bind_apply_error hm] <;> simp
        exact .inl ⟨r, c, hc, herror⟩
      · have herror : ((e' >>= f') here w).1 = .error (Files.unwritable r c) ∨
            ((e' >>= f') here w).1 = .error (Files.walkFault r c) := by
          rcases hy with rfl | rfl <;> rw [bind_apply_error hw] <;> simp
        exact .inr (.inl ⟨r, c, hc, herror⟩)
      · cases halong with
        | ok x =>
          rw [bind_apply_ok hm, bind_apply_ok hw]
          exact hnext x m' w' hm hw hdisk
        | refused names c =>
          rw [bind_apply_error hm, bind_apply_error hw]
          exact .inr (.inr ⟨.refused names c, hdisk⟩)

theorem pure (x : α) (h : m.disk = w.disk) :
    Beside p q ((Pure.pure x : Work α) here m) ((Pure.pure x : Work α) here w) :=
  .inr (.inr ⟨.ok x, h⟩)

end Beside

theorem realName_fileName : RealName fileName := ⟨isName_fileName, by decide, by decide⟩

section Steps
variable (hw : w.disk = m.disk) (hdir : m.disk.get? dir = some .directory)
variable (hp : m.disk.resolve here .look p = .ok (.entry dir))
include hdir hp

theorem writeIndex_of_directory :
    writeIndex p here m =
      (do
        (liftM ((Access.writeFile (p / fileName)
          (Text.encode (render (m.disk.names dir)))).mapError (Files.unwritable (p / fileName))) :
            Work Unit)
        Work.note .debug "gemstage::dirinfo" "wrote directory index"
          [("dir", p.text), ("entries", toString (m.disk.names dir).length)]) here m := by
  have hnames : m.disk.namesAt here p = m.disk.names dir := by
    rw [namesAt, locate_eq_ok_iff.2 hp]
  have hwrite := Files.writeText_div isName_fileName (isDirAt_iff.2 ⟨dir, hp, hdir⟩)
    (render (m.disk.names dir))
  rw [writeIndex, bind_apply_ok (listNames_lift_apply p m), hnames]
  simp only [bind_apply, Files.lift_apply, hwrite]

variable (hq : m.disk.resolve here .look q = .ok (.entry dir))
include hw hq

theorem writeIndex_beside : Beside p q (writeIndex p here m) (writeIndex q here w) := by
  rw [writeIndex_of_directory hdir hp,
    writeIndex_of_directory (by rw [hw, hdir]) (by rw [hw, hq]), hw]
  refine .bind ?_ fun _ m' w' _ _ hdisk => .inr (.inr ⟨.ok (), hdisk⟩)
  rw [Files.lift_apply, Files.lift_apply, hw]
  generalize Text.encode (render (m.disk.names dir)) = content
  rcases resolve_div_alike .makeFile realName_fileName hdir hp hq with
    hsame | ⟨e, he, hrefused | hrefused⟩
  · have hwrite : Access.writeFile (p / fileName) content here m.disk =
        Access.writeFile (q / fileName) content here m.disk := Access.writeFile_congr hsame
    refine .inr (.inr ⟨?_, ?_⟩)
    · rw [fst_mapError, fst_mapError, hwrite]
      cases (Access.writeFile (q / fileName) content here m.disk).1 with
      | ok x => exact .ok x
      | error e => exact .refused [fileName] e
    · simp only [snd_mapError, hwrite]
  · refine .inl ⟨p / fileName, e, he, .inl ?_⟩
    rw [fst_mapError, Access.writeFile_of_refused hrefused]
    rfl
  · refine .inr (.inl ⟨q / fileName, e, he, .inl ?_⟩)
    rw [fst_mapError, Access.writeFile_of_refused hrefused]
    rfl

end Steps

theorem atLimit_of_long (fuel : Nat) (hname : IsName name)
    (hlong : ∀ purpose, m.disk.resolve here purpose (p / name) = .error .nameTooLong) :
    AtLimit (writeBelow fuel true (p / name) here m).1 := by
  refine ⟨p / name, .nameTooLong, .inl rfl, .inl ?_⟩
  cases fuel with
  | zero => rfl
  | succ fuel =>
    have hindex : writeIndex (p / name) here m =
        (.error (Files.unwritable (p / name) .nameTooLong), m) := by
      have hwrite := Files.writeText_div_of_refused hname isName_fileName (by simp) hlong
        (render (m.disk.namesAt here (p / name)))
      rw [writeIndex, bind_apply_ok (listNames_lift_apply (p / name) m)]
      simp only [bind_apply, Files.lift_apply, hwrite]
    rw [writeBelow, bind_apply_ok (attempt_shownDirs_apply (p / name) m), if_pos rfl,
      bind_apply_error hindex]

theorem sumNames_beside {f g : String → Work Nat} (inv : Disk → Prop)
    (hturn : ∀ name ∈ names, ∀ m w : Machine, inv m.disk → w.disk = m.disk →
      Beside p q (f name here m) (g name here w))
    (hkeep : ∀ name ∈ names, ∀ m m' n, inv m.disk → f name here m = (.ok n, m') → inv m'.disk)
    (hm : inv m.disk) (hw : w.disk = m.disk) :
    Beside p q (sumNames f names here m) (sumNames g names here w) := by
  induction names generalizing m w with
  | nil => exact .pure 0 hw.symm
  | cons name rest ih =>
    obtain ⟨hname, hrest⟩ := List.forall_mem_cons.1 hturn
    obtain ⟨hkept, hkeep⟩ := List.forall_mem_cons.1 hkeep
    refine .bind (hname m w hm hw) fun n m₁ w₁ hfirst _ hdisk => ?_
    refine .bind (ih hrest hkeep (hkept m m₁ n hm hfirst) hdisk.symm) fun k m₂ w₂ _ _ hdisk => ?_
    exact .pure (n + k) hdisk

theorem sumNames_keeps {f : String → Work Nat} (inv : Disk → Prop)
    (hkeep : ∀ name m m' n, inv m.disk → f name here m = (.ok n, m') → inv m'.disk)
    (hm : inv m.disk) (h : sumNames f names here m = (.ok n, m')) : inv m'.disk := by
  induction names generalizing m n with
  | nil =>
    obtain ⟨-, rfl⟩ := ok_inj h
    exact hm
  | cons name rest ih =>
    obtain ⟨i, m₁, k, hfirst, hmore, -⟩ := sumNames_cons_eq_ok_iff.1 h
    exact ih (hkeep name m m₁ i hm hfirst) hmore

theorem writeIndex_gains (hhere : m.disk.get? here = some .directory)
    (hdir : m.disk.get? dir = some .directory)
    (hl : m.disk.resolve here .look p = .ok (.entry dir))
    (h : writeIndex p here m = (.ok (), m')) : m.disk.GainsFiles m'.disk := by
  refine ⟨(writeIndex_grows p).of_eq h, fun loc hloc => ?_⟩
  have hwrite := disk_of_writeIndex h
  rw [Files.writeText_div isName_fileName (isDirAt_iff.2 ⟨dir, hl, hdir⟩), mapError_eq_ok_iff]
    at hwrite
  obtain ⟨place, hwrote⟩ := Access.exists_wrote hhere hwrite
  by_cases hplace : loc = place
  · obtain ⟨mode, -, hfile⟩ := hwrote.file
    rw [hplace, hfile] at hloc
    cases hloc
  · rwa [hwrote.others loc hplace] at hloc

theorem writeBelow_gains (fuel : Nat) (hhere : m.disk.get? here = some .directory)
    (h : writeBelow fuel true p here m = (.ok n, m')) : m.disk.GainsFiles m'.disk := by
  induction fuel generalizing p m m' n with
  | zero => cases (Prod.mk.inj h).1
  | succ fuel ih =>
    obtain ⟨names, m₁, k, hshown, hindex, hsum, -⟩ := writeBelow_eq_ok_iff.1 h
    obtain ⟨dir, hl, hdir, -⟩ := exists_of_shownDirs hshown
    have hgains := writeIndex_gains hhere hdir hl hindex
    refine sumNames_keeps m.disk.GainsFiles (fun name m₂ m₃ n hgains₂ hturn => ?_) hgains hsum
    exact hgains₂.trans (ih (hgains₂.grows.directory hhere) hturn)

/-- What indexing comes to in a directory: its own index, if that is asked for, and then the
directories in it. -/
theorem writeBelow_of_directory (fuel : Nat) (own : Bool)
    (hdir : m.disk.get? dir = some .directory)
    (hl : m.disk.resolve here .look p = .ok (.entry dir)) :
    writeBelow (fuel + 1) own p here m =
      (do
        if own then writeIndex p
        return own.toNat +
          (← sumNames (fun name => writeBelow fuel true (p / name)) (shownNames m.disk dir)))
        here m := by
  rw [writeBelow, bind_apply_ok (attempt_shownDirs_apply p m), shownDirs_apply hl hdir]

/-- Along two paths to a directory a tree in it is indexed alike, if it is along the two paths to it
that the system does not refuse for their length. -/
theorem turn_beside (fuel : Nat) (hnamed : m.disk.DirsNamed)
    (hdir : m.disk.get? dir = some .directory)
    (hp : m.disk.resolve here .look p = .ok (.entry dir))
    (hq : m.disk.resolve here .look q = .ok (.entry dir))
    (hchild : m.disk.get? (dir ++ [name]) = some .directory)
    (htree : m.disk.resolve here .look (p / name) = .ok (.entry (dir ++ [name])) →
      m.disk.resolve here .look (q / name) = .ok (.entry (dir ++ [name])) →
      Beside (p / name) (q / name) (writeBelow fuel true (p / name) here m)
        (writeBelow fuel true (q / name) here w)) :
    Beside p q (writeBelow fuel true (p / name) here m)
      (writeBelow fuel true (q / name) here w) := by
  have hreal := hnamed _ _ hchild
  rcases walkable_div_or_long (resolve_eq_ok_iff.1 hp).1 hreal with hpwalk | hlong
  · rcases walkable_div_or_long (resolve_eq_ok_iff.1 hq).1 hreal with hqwalk | hlong
    · exact .of_div (htree (resolve_look_div hp hdir hreal hpwalk hchild)
        (resolve_look_div hq hdir hreal hqwalk hchild))
    · exact .inr (.inl (atLimit_of_long fuel hreal.isName (hlong w.disk here)))
  · exact .inl (atLimit_of_long fuel hreal.isName (hlong m.disk here))

theorem writeBelow_beside (fuel : Nat) (own : Bool) (hnamed : m.disk.DirsNamed)
    (hhere : m.disk.get? here = some .directory) (hw : w.disk = m.disk)
    (hdir : m.disk.get? dir = some .directory)
    (hp : m.disk.resolve here .look p = .ok (.entry dir))
    (hq : m.disk.resolve here .look q = .ok (.entry dir)) :
    Beside p q (writeBelow fuel own p here m) (writeBelow fuel own q here w) := by
  induction fuel generalizing own p q dir m w with
  | zero => exact .inl ⟨p, .nameTooLong, .inl rfl, .inl rfl⟩
  | succ fuel ih =>
    rw [writeBelow_of_directory fuel own hdir hp,
      writeBelow_of_directory fuel own (by rw [hw, hdir]) (by rw [hw, hq]), hw]
    have hrest (m₁ w₁ : Machine) (hdisk : m₁.disk = w₁.disk) (hgains : m.disk.GainsFiles m₁.disk) :
        Beside p q
          (sumNames (fun name => writeBelow fuel true (p / name)) (shownNames m.disk dir) here m₁)
          (sumNames (fun name => writeBelow fuel true (q / name)) (shownNames m.disk dir)
            here w₁) := by
      refine sumNames_beside m.disk.GainsFiles ?_ ?_ hgains hdisk.symm
      · rintro name hname m₂ w₂ ⟨hg, hback⟩ hdisk
        have hchild := hg.directory (mem_shownNames.1 hname).2
        have hnamed₂ := hnamed.of_gains ⟨hg, hback⟩
        have hp₂ := hg.arrives (.inl rfl) rfl hp (.inl (hg.directory hdir))
        have hq₂ := hg.arrives (.inl rfl) rfl hq (.inl (hg.directory hdir))
        exact turn_beside fuel hnamed₂ (hg.directory hdir) hp₂ hq₂ hchild fun hlp hlq =>
          ih true hnamed₂ (hg.directory hhere) hdisk hchild hlp hlq
      · intro name _ m₂ m₃ n hgains₂ hturn
        exact hgains₂.trans (writeBelow_gains fuel (hgains₂.grows.directory hhere) hturn)
    cases own with
    | true =>
      rw [if_pos rfl, if_pos rfl]
      refine .bind (writeIndex_beside hw hdir hp hq) fun _ m₁ w₁ hindex _ hdisk => ?_
      have hindexed := writeIndex_gains hhere hdir hp hindex
      refine .bind (hrest m₁ w₁ hdisk hindexed) fun k _ _ _ _ hdisk => ?_
      exact .pure (1 + k) hdisk
    | false =>
      refine .bind (hrest m w hw.symm (.refl _)) fun k m₂ w₂ _ _ hdisk => ?_
      exact .pure (0 + k) hdisk

theorem writeBelow_own (fuel : Nat) (hhere : m.disk.get? here = some .directory)
    (hdir : m.disk.get? dir = some .directory)
    (hl : m.disk.resolve here .look p = .ok (.entry dir)) :
    writeBelow (fuel + 1) true p here m =
      (do
        writeIndex p
        return 1 + (← writeBelow (fuel + 1) false p)) here m := by
  rw [writeBelow_of_directory fuel true hdir hl, if_pos rfl]
  cases hindex : writeIndex p here m with
  | mk x m₁ =>
    cases x with
    | error f => rw [bind_apply_error hindex, bind_apply_error hindex]
    | ok x =>
      obtain ⟨hg, hback⟩ := writeIndex_gains hhere hdir hl hindex
      have hl₁ := hg.arrives (.inl rfl) rfl hl (.inl (hg.directory hdir))
      have hnames : shownNames m₁.disk dir = shownNames m.disk dir :=
        shownNames_congr fun name => ⟨hback _, hg.directory⟩
      have hwithout := writeBelow_of_directory fuel false (hg.directory hdir) hl₁
      rw [hnames] at hwithout
      rw [bind_apply_ok hindex, bind_apply_ok hindex]
      cases hsum : sumNames (fun name => writeBelow fuel true (p / name))
          (shownNames m.disk dir) here m₁ with
      | mk y m₂ =>
        cases y with
        | error f =>
          have hfails := hwithout.trans (bind_apply_error hsum)
          exact (bind_apply_error hsum).trans (bind_apply_error hfails).symm
        | ok k =>
          have hcounts := hwithout.trans (bind_apply_ok hsum)
          refine (bind_apply_ok hsum).trans ?_
          rw [bind_apply_ok hcounts]
          simp

/-- Indexing through a path to a directory does what indexing along the directory's own path does,
if the path names the directory. If it names a link, the directory's own index is left out. -/
theorem generate_beside (hnamed : m.disk.DirsNamed) (hhere : m.disk.get? here = some .directory)
    (hroot : m.disk.locate here root = .ok dir) (hdir : m.disk.get? dir = some .directory)
    (hq : m.disk.locateLink here q = .ok dir) :
    (m.disk.locateLink here root = .ok dir →
      Beside root q (generate root here m) (generate q here m)) ∧
    (m.disk.locateLink here root ≠ .ok dir →
      Beside root q (generate root here m) (writeBelow Files.maxDepth false q here m)) ∧
    generate q here m =
      (do
        writeIndex q
        return 1 + (← writeBelow Files.maxDepth false q)) here m := by
  have hp := locate_eq_ok_iff.1 hroot
  have hlq : m.disk.resolve here .look q = .ok (.entry dir) := by
    rcases lookAtLink_cases hhere (locateLink_eq_ok_iff.1 hq) with ⟨-, hlq⟩ | ⟨_, _, _, -, -, hno⟩
    · exact hlq
    · exact absurd hdir hno
  have hown : m.disk.isDirectory dir = true := by simp [isDirectory, hdir]
  have hgenerate := generate_of_isDirAt (isDirAt_iff.2 ⟨dir, hlq, hdir⟩) hq
  rw [hown] at hgenerate
  obtain ⟨loc, hlink⟩ := exists_lookAtLink hp
  have hlink' := locateLink_eq_ok_iff.2 hlink
  have hbeside (own : Bool) := writeBelow_beside Files.maxDepth own hnamed hhere rfl hdir hp hlq
  have hgenerate' := generate_of_isDirAt (isDirAt_iff.2 ⟨dir, hp, hdir⟩) hlink'
  refine ⟨fun hsame => ?_, fun hother => ?_, ?_⟩
  · obtain rfl : loc = dir := by simpa [hlink'] using hsame
    rw [hgenerate', hgenerate, hown]
    exact hbeside true
  · have hnot : m.disk.isDirectory loc = false := by
      rcases lookAtLink_cases hhere hlink with ⟨-, hl⟩ | ⟨_, _, _, -, -, hno⟩
      · have hsame : loc = dir := by simpa [hp] using hl.symm
        exact absurd (hsame ▸ hlink') hother
      · simpa [isDirectory] using hno
    rw [hgenerate', hnot]
    exact hbeside false
  · rw [hgenerate]
    exact writeBelow_own _ hhere hdir hlq

/-- A directory with a directory in it, and a link to the upper one. -/
def linkedTree : Disk :=
  diskOf [([], "r", .directory), (["r"], "a", .directory), (["r", "a"], "b", .file [66] .data),
    ([], "l", .link ⟨"r"⟩)]

/-- A directory that is indexed through a link gets no index of its own, the one in it does. -/
theorem unindexed_sample :
    linkedTree.isDirAt [] ⟨"l"⟩ ∧ linkedTree.locate [] ⟨"l"⟩ = .ok ["r"] ∧
      linkedTree.locateLink [] ⟨"r"⟩ = .ok ["r"] ∧
      (generate ⟨"l"⟩ [] { disk := linkedTree }).1.toOption = some 1 ∧
      (generate ⟨"l"⟩ [] { disk := linkedTree }).2.disk.get? ["r", ".jrubydir"] = none ∧
      ((generate ⟨"l"⟩ [] { disk := linkedTree }).2.disk.get? ["r", "a", ".jrubydir"]).isSome ∧
      (generate ⟨"r"⟩ [] { disk := linkedTree }).1.toOption = some 2 ∧
      ((generate ⟨"r"⟩ [] { disk := linkedTree }).2.disk.get? ["r", ".jrubydir"]).isSome := by
  decide +kernel

theorem generate_beside_sample :
    Beside ⟨"l"⟩ ⟨"r"⟩ (generate ⟨"l"⟩ [] { disk := linkedTree })
        (writeBelow Files.maxDepth false ⟨"r"⟩ [] { disk := linkedTree }) ∧
      Beside ⟨"./r"⟩ ⟨"r"⟩ (generate ⟨"./r"⟩ [] { disk := linkedTree })
        (generate ⟨"r"⟩ [] { disk := linkedTree }) := by
  have hnamed : linkedTree.DirsNamed := dirsNamed_diskOf (by decide)
  have hhere : linkedTree.get? [] = some .directory := get?_root linkedTree
  have hdir : linkedTree.get? ["r"] = some .directory := by decide +kernel
  have hq : linkedTree.locateLink [] ⟨"r"⟩ = .ok ["r"] := by decide +kernel
  have hlink : linkedTree.locate [] ⟨"l"⟩ = .ok ["r"] := by decide +kernel
  have hdot : linkedTree.locate [] ⟨"./r"⟩ = .ok ["r"] := by decide +kernel
  obtain ⟨-, hthrough, -⟩ :=
    generate_beside (m := { disk := linkedTree }) hnamed hhere hlink hdir hq
  obtain ⟨hnames, -, -⟩ := generate_beside (m := { disk := linkedTree }) hnamed hhere hdot hdir hq
  exact ⟨hthrough (by decide +kernel), hnames (by decide +kernel)⟩

end DirIndex

end GemStaging
