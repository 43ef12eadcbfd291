import GemStaging.Proofs.Disk.Plain
import GemStaging.Proofs.Disk.Threading

/-!
Two ways to one place. Through two paths to a directory the names in it are walked alike
(`Disk.resolve_div_alike`), and along two ways to an entry a look comes to the same
(`Disk.look_alike`), unless the system refuses one of the two: for the length of its path, or for
the number of links.
-/

namespace GemStaging

open Disk GemStaging.Path

variable {here dir : Location} {p q : Path} {name : String} {d : Disk}

/-- A name that an entry can have. -/
structure Path.RealName (name : String) : Prop where
  isName : IsName name
  fits : nameFits name
  nulless : '\x00' ∉ name.toList

instance (name : String) : Decidable (RealName name) :=
  decidable_of_iff (IsName name ∧ nameFits name ∧ '\x00' ∉ name.toList)
    ⟨fun ⟨hname, hfits, hnul⟩ => ⟨hname, hfits, hnul⟩, fun h => ⟨h.isName, h.fits, h.nulless⟩⟩

namespace Disk

/-- Directories have names that entries can have. -/
def DirsNamed (d : Disk) : Prop :=
  ∀ loc name, d.get? (loc ++ [name]) = some .directory → RealName name

theorem dirsNamed_diskOf {entries : List (Location × String × Entry)}
    (h : ∀ e ∈ entries, RealName e.2.1) : (diskOf entries).DirsNamed := by
  rw [diskOf]
  have hempty : Disk.onlyRoot.DirsNamed := by
    intro loc name hdir
    have hne : loc ++ [name] ≠ [] := by simp
    simp [get?, Disk.onlyRoot, Table.get?_insert_of_ne _ _ hne] at hdir
  generalize Disk.onlyRoot = d at hempty
  induction entries generalizing d with
  | nil => exact hempty
  | cons e rest ih =>
    obtain ⟨hname, hrest⟩ := List.forall_mem_cons.1 h
    refine ih hrest _ fun loc name hdir => ?_
    by_cases hk : loc ++ [name] = e.1 ++ [e.2.1]
    · rw [List.singleton_inj.1 (List.append_inj' hk rfl).2]
      exact hname
    · rw [get?_put_of_ne hk] at hdir
      exact hempty loc name hdir

structure GainsFiles (c d : Disk) : Prop where
  grows : c.Grows d
  directory : ∀ loc, d.get? loc = some .directory → c.get? loc = some .directory

theorem GainsFiles.refl (d : Disk) : d.GainsFiles d := ⟨.refl d, fun _ h => h⟩

theorem GainsFiles.trans {b c d : Disk} (h : b.GainsFiles c) (h' : c.GainsFiles d) :
    b.GainsFiles d :=
  ⟨h.grows.trans h'.grows, fun loc hloc => h.directory loc (h'.directory loc hloc)⟩

theorem DirsNamed.of_gains {c d : Disk} (h : c.DirsNamed) (hgains : c.GainsFiles d) :
    d.DirsNamed :=
  fun loc name hdir => h loc name (hgains.directory _ hdir)

theorem walkable_div_or_long (hp : Walkable p) (hname : RealName name) :
    Walkable (p / name) ∨
      ∀ (d : Disk) here purpose, d.resolve here purpose (p / name) = .error .nameTooLong := by
  have hempty : (p / name).text.isEmpty = false := by simpa using not_isEmpty_div hname.isName
  have hnul : '\x00' ∉ (p / name).text.toList := by
    rw [toList_div p hname.isName]
    have hgap : '\x00' ∉ p.gap := by
      rw [gap]
      split <;> simp
    simp [hp.nulless, hname.nulless, hgap]
  by_cases hfits : pathFits (p / name)
  · exact .inl ⟨hnul, hempty, hfits⟩
  · refine .inr fun d here purpose => ?_
    rw [resolve, if_neg (by simpa using hnul), if_neg (by simp [hempty]), if_pos (by simp [hfits])]

theorem resolve_look_div (hl : d.resolve here .look p = .ok (.entry dir))
    (hdir : d.get? dir = some .directory) (hname : RealName name) (hp : Walkable (p / name))
    (hchild : d.get? (dir ++ [name]) = some .directory) :
    d.resolve here .look (p / name) = .ok (.entry (dir ++ [name])) := by
  obtain ⟨left, hthreads⟩ := exists_threads_of_look hl hdir
  have hone : Threads d left dir [name] left (dir ++ [name]) :=
    threads_names (by simpa using ⟨hname.isName, hname.fits⟩) hchild
  rw [hthreads.resolve_div hname.isName hp, hone.walk_look]

/-- Through two paths to a directory a name in it is walked alike, unless the system refuses one of
them. -/
theorem resolve_div_alike (purpose : Purpose) (hname : RealName name)
    (hdir : d.get? dir = some .directory) (hp : d.resolve here .look p = .ok (.entry dir))
    (hq : d.resolve here .look q = .ok (.entry dir)) :
    d.resolve here purpose (p / name) = d.resolve here purpose (q / name) ∨
      ∃ e, (e = .nameTooLong ∨ e = .tooManyLinks) ∧
        (d.resolve here purpose (p / name) = .error e ∨
          d.resolve here purpose (q / name) = .error e) := by
  rcases walkable_div_or_long (resolve_eq_ok_iff.1 hp).1 hname with hpwalk | hlong
  · rcases walkable_div_or_long (resolve_eq_ok_iff.1 hq).1 hname with hqwalk | hlong
    · obtain ⟨left, hpthreads⟩ := exists_threads_of_look hp hdir
      obtain ⟨left', hqthreads⟩ := exists_threads_of_look hq hdir
      rw [hpthreads.resolve_div hname.isName hpwalk, hqthreads.resolve_div hname.isName hqwalk]
      rcases Nat.le_total left left' with hle | hle
      · exact (walk_fewer hle [name]).imp id fun h => ⟨_, .inr rfl, .inl h⟩
      · exact (walk_fewer hle [name]).imp Eq.symm fun h => ⟨_, .inr rfl, .inr h⟩
    · exact .inr ⟨_, .inl rfl, .inr (hlong d here purpose)⟩
  · exact .inr ⟨_, .inl rfl, .inl (hlong d here purpose)⟩

theorem Designates.resolve_look {left : Nat} {last : String}
    (h : Designates d here p left dir last) (hp : Walkable p) :
    d.resolve here .look p = walk d .look left false dir [last] := by
  obtain ⟨front, hhops, hthreads⟩ := h.leads
  obtain ⟨hnul, hempty, hfits⟩ := hp
  rw [resolve, if_neg (by simpa using hnul), if_neg (by simp [hempty]), if_neg (by simp [hfits]),
    h.slashless, hhops, hthreads.walk_append (by simp)]

theorem resolve_look_of_not_link {loc : Location} (hhere : d.get? here = some .directory)
    (h : d.resolve here .lookAtLink p = .ok (.entry loc))
    (hno : ∀ target, d.get? loc ≠ some (.link target)) :
    d.resolve here .look p = .ok (.entry loc) := by
  rcases lookAtLink_cases hhere h with ⟨-, hlook⟩ | ⟨left, dir, last, hway, rfl, hnodir⟩
  · exact hlook
  · obtain ⟨e, he, -⟩ := resolve_sound hhere h
    rw [hway.resolve_look (resolve_eq_ok_iff.1 h).1, walk_eq, walkHops_eq_ok_iff]
    cases e with
    | directory => exact absurd he hnodir
    | link target => exact absurd he (hno target)
    | file content mode => exact .file ⟨hway.notDot, hway.notUp, by simp, hway.fits⟩ he (by simp)

/-- Along two ways to one entry a look comes to the same, unless too many links stand on one. -/
theorem look_alike {here' loc : Location} (hhere : d.get? here = some .directory)
    (hhere' : d.get? here' = some .directory)
    (hp : d.resolve here .lookAtLink p = .ok (.entry loc))
    (hq : d.resolve here' .lookAtLink q = .ok (.entry loc)) :
    d.resolve here .look p = d.resolve here' .look q ∨
      d.resolve here .look p = .error .tooManyLinks ∨
      d.resolve here' .look q = .error .tooManyLinks := by
  rcases lookAtLink_cases hhere hp with ⟨hdir, hlp⟩ | ⟨left, dir, last, hpway, rfl, hno⟩
  · rcases lookAtLink_cases hhere' hq with ⟨-, hlq⟩ | ⟨_, _, _, -, -, hno⟩
    · exact .inl (hlp.trans hlq.symm)
    · exact absurd hdir hno
  · rcases lookAtLink_cases hhere' hq with ⟨hdir, -⟩ | ⟨left', dir', last', hqway, hsame, -⟩
    · exact absurd hdir hno
    · obtain ⟨rfl, hlast⟩ := List.append_inj' hsame rfl
      obtain rfl := List.singleton_inj.1 hlast
      rw [hpway.resolve_look (resolve_eq_ok_iff.1 hp).1,
        hqway.resolve_look (resolve_eq_ok_iff.1 hq).1]
      rcases Nat.le_total left left' with hle | hle
      · exact (walk_fewer hle [last]).imp id .inl
      · exact (walk_fewer hle [last]).imp Eq.symm .inr

/-- Two ways to one entry lead to the same place through it. If the entry is a link, that is so
where the links are too many along both ways or along none. -/
theorem locate_alike {here' loc : Location} (hhere : d.get? here = some .directory)
    (hhere' : d.get? here' = some .directory) (hp : d.locateLink here p = .ok loc)
    (hq : d.locateLink here' q = .ok loc)
    (hlimit : ∀ target, d.get? loc = some (.link target) →
      (d.locate here p = .error .tooManyLinks ↔ d.locate here' q = .error .tooManyLinks)) :
    d.locate here p = d.locate here' q := by
  rw [locateLink_eq_ok_iff] at hp hq
  by_cases hlink : ∃ target, d.get? loc = some (.link target)
  · obtain ⟨target, hlink⟩ := hlink
    rcases look_alike hhere hhere' hp hq with h | h | h
    · rw [locate, locate, h]
    · have hleft : d.locate here p = .error .tooManyLinks := by rw [locate, h]
      rw [hleft, (hlimit target hlink).1 hleft]
    · have hright : d.locate here' q = .error .tooManyLinks := by rw [locate, h]
      rw [hright, (hlimit target hlink).2 hright]
  · have hno (target : Path) : d.get? loc ≠ some (.link target) := fun h => hlink ⟨target, h⟩
    rw [locate, locate, resolve_look_of_not_link hhere hp hno,
      resolve_look_of_not_link hhere' hq hno]

theorem locate_pathOf (hnamed : d.DirsNamed) (hdir : d.get? dir = some .directory) :
    d.locate here (pathOf dir) = .ok dir ∨ ∃ e, d.locate here (pathOf dir) = .error e := by
  have hnames : ∀ name ∈ dir, RealName name := by
    intro name hname
    obtain ⟨front, back, rfl⟩ := List.append_of_mem hname
    refine hnamed front name ?_
    rw [List.append_cons] at hdir
    exact directory_upward (List.prefix_append _ _) hdir
  have hdown : Threads d maxLinks [] dir maxLinks ([] ++ dir) :=
    threads_names (fun name hname => ⟨(hnames name hname).isName, (hnames name hname).fits⟩) hdir
  have hthreads :
      Threads d maxLinks (origin (pathOf dir) here) (hops (pathOf dir)) maxLinks dir := by
    have horigin : origin (pathOf dir) here = [] := by simp [origin, isAbsolute, pathOf]
    rw [hops_pathOf fun name hname => (hnames name hname).isName, horigin]
    exact hdown
  cases hlocate : d.locate here (pathOf dir) with
  | error e => exact .inr ⟨e, rfl⟩
  | ok loc =>
    have hlook := locate_eq_ok_iff.1 hlocate
    simpa [hlook] using hthreads.resolve_look (resolve_eq_ok_iff.1 hlook).1

end Disk

end GemStaging
