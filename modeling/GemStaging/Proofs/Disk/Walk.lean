import GemStaging.Proofs.Path.Hops

/-!
Where a walk may end. From a directory a walk ends at an entry that is there, or at a name that is
free in a directory that is there (`resolve_sound`).
-/

namespace GemStaging.Disk

theorem get?_dropLast {d : Disk} {loc : Location} (h : d.get? loc = some .directory) :
    d.get? loc.dropLast = some .directory := by
  rcases List.eq_nil_or_concat loc with rfl | ⟨dir, name, rfl⟩
  · exact h
  · rw [List.concat_eq_append] at h ⊢
    rw [List.dropLast_concat]
    have hsome : (d.get? (dir ++ [name])).isSome := by simp [h]
    exact d.get?_parent hsome

theorem get?_of_below {d : Disk} {loc rest : Location} (hrest : rest ≠ [])
    (h : (d.get? (loc ++ rest)).isSome) : d.get? loc = some .directory := by
  induction rest using List.reverseRecOn with
  | nil => exact absurd rfl hrest
  | append_singleton init name ih =>
    rw [← List.append_assoc] at h
    have hup := d.get?_parent h
    cases init with
    | nil => simpa using hup
    | cons a as => exact ih (by simp) (by simp [hup])

theorem directory_upward {d : Disk} {x y : Location} (hbelow : x <+: y)
    (h : d.get? y = some .directory) : d.get? x = some .directory := by
  obtain ⟨rest, rfl⟩ := hbelow
  cases rest with
  | nil => rwa [List.append_nil] at h
  | cons => exact get?_of_below (List.cons_ne_nil _ _) (by rw [h]; rfl)

theorem isSome_upward {d : Disk} {x y : Location} (hbelow : x <+: y)
    (h : (d.get? y).isSome) : (d.get? x).isSome := by
  obtain ⟨rest, rfl⟩ := hbelow
  cases rest with
  | nil => rwa [List.append_nil] at h
  | cons =>
    rw [get?_of_below (List.cons_ne_nil _ _) h]
    rfl

theorem file?_eq_some_iff {d : Disk} {loc : Location} {content : Bytes} {mode : Mode} :
    d.file? loc = some (content, mode) ↔ d.get? loc = some (.file content mode) := by
  rw [file?]
  split
  · rename_i he
    simp [he]
  · rename_i hno
    simpa using hno content mode

theorem isSome_file?_iff {d : Disk} {loc : Location} :
    (d.file? loc).isSome ↔ ∃ content mode, d.get? loc = some (.file content mode) := by
  simp [Option.isSome_iff_exists, file?_eq_some_iff]

/-- Putting an entry changes no other one, also where it is refused. -/
theorem get?_put_of_ne {d : Disk} {dir : Location} {name : String} {e : Entry} {k : Location}
    (hk : k ≠ dir ++ [name]) : (d.put dir name e).get? k = d.get? k := by
  by_cases ha : d.admits dir name e
  · rw [get?_put ha, if_neg hk]
  · simp [put, ha]

namespace Target

def loc : Target → Location
  | entry loc => loc
  | free dir name => dir ++ [name]

end Target

def Purpose.follows : Purpose → Bool
  | look | makeFile => true
  | lookAtLink | makeDirectory => false

def Purpose.endsAt (purpose : Purpose) (e : Entry) : Prop :=
  purpose.follows → ∀ target, e ≠ .link target

structure Enters (purpose : Purpose) (slash : Bool) (hop : String) (rest : List String) : Prop where
  notDot : hop ≠ "."
  notUp : hop ≠ ".."
  fileless : ¬ (rest = [] ∧ slash ∧ purpose = .makeFile)
  fits : nameFits hop

theorem Enters.to {purpose purpose' : Purpose} {slash slash' : Bool} {hop : String}
    {rest : List String} (h : Enters purpose slash hop rest)
    (hfile : slash' → purpose' = .makeFile → slash ∧ purpose = .makeFile) :
    Enters purpose' slash' hop rest := by
  refine ⟨h.notDot, h.notUp, ?_, h.fits⟩
  rintro ⟨hrest, hslash, hmake⟩
  exact h.fileless ⟨hrest, hfile hslash hmake⟩

def Purpose.KeepsLink (purpose : Purpose) (slash : Bool) : Prop :=
  purpose = .makeDirectory ∨ purpose = .lookAtLink ∧ slash = false

/-- The walks that succeed, step by step. -/
inductive Walks (d : Disk) (purpose : Purpose) (slash : Bool) (onLink : OnLink) :
    Location → List String → Target → Prop where
  | arrived (here : Location) : Walks d purpose slash onLink here [] (.entry here)
  | dot {here : Location} {rest : List String} {t : Target} :
      Walks d purpose slash onLink here rest t → Walks d purpose slash onLink here ("." :: rest) t
  | up {here : Location} {rest : List String} {t : Target} :
      Walks d purpose slash onLink here.dropLast rest t →
      Walks d purpose slash onLink here (".." :: rest) t
  | free {here : Location} {hop : String} : Enters purpose slash hop [] →
      d.get? (here ++ [hop]) = none → Walks d purpose slash onLink here [hop] (.free here hop)
  | directory {here : Location} {hop : String} {rest : List String} {t : Target} :
      Enters purpose slash hop rest → d.get? (here ++ [hop]) = some .directory →
      Walks d purpose slash onLink (here ++ [hop]) rest t →
      Walks d purpose slash onLink here (hop :: rest) t
  | file {here : Location} {hop : String} {content : Bytes} {mode : Mode} :
      Enters purpose slash hop [] → d.get? (here ++ [hop]) = some (.file content mode) →
      (slash → purpose = .makeDirectory) →
      Walks d purpose slash onLink here [hop] (.entry (here ++ [hop]))
  | kept {here : Location} {hop : String} {target : Path} : Enters purpose slash hop [] →
      d.get? (here ++ [hop]) = some (.link target) → purpose.KeepsLink slash →
      Walks d purpose slash onLink here [hop] (.entry (here ++ [hop]))
  | followed {here : Location} {hop : String} {rest : List String} {target : Path} {t : Target} :
      Enters purpose slash hop rest → d.get? (here ++ [hop]) = some (.link target) →
      ¬ (rest = [] ∧ purpose.KeepsLink slash) → onLink here target rest slash = .ok t →
      Walks d purpose slash onLink here (hop :: rest) t

section Derivations
variable {d : Disk} {purpose : Purpose} {slash : Bool} {onLink : OnLink} {here : Location}
variable {hops : List String} {t : Target}

theorem walks_of_walkHops (h : walkHops d purpose slash onLink here hops = .ok t) :
    Walks d purpose slash onLink here hops t := by
  induction hops generalizing here with
  | nil =>
    obtain rfl := Except.ok.inj h
    exact .arrived here
  | cons hop rest ih =>
    simp only [walkHops] at h
    split at h
    · rename_i hdot
      subst hdot
      exact .dot (ih h)
    rename_i hdot
    split at h
    · rename_i hup
      subst hup
      exact .up (ih h)
    rename_i hup
    split at h
    · simp at h
    rename_i hfile
    split at h
    · simp at h
    rename_i hfits
    have henters : Enters purpose slash hop rest :=
      ⟨hdot, hup, by simpa using hfile, by simpa using hfits⟩
    split at h
    · rename_i hnone
      split at h
      · rename_i hrest
        obtain rfl := List.isEmpty_iff.1 hrest
        obtain rfl := Except.ok.inj h
        exact .free henters hnone
      · simp at h
    · rename_i hdir
      exact .directory henters hdir (ih h)
    · rename_i hentry
      split at h
      · rename_i hlast
        obtain ⟨hrest, hslash⟩ := Bool.and_eq_true_iff.1 hlast
        obtain rfl := List.isEmpty_iff.1 hrest
        obtain rfl := Except.ok.inj h
        refine .file henters hentry ?_
        intro hs
        simpa [hs] using hslash
      · simp at h
    · rename_i hlink
      split at h
      · rename_i hlast
        obtain ⟨hrest, hkeeps⟩ := Bool.and_eq_true_iff.1 hlast
        obtain rfl := List.isEmpty_iff.1 hrest
        obtain rfl := Except.ok.inj h
        exact .kept henters hlink (by simpa [Purpose.KeepsLink] using hkeeps)
      · rename_i hlast
        exact .followed henters hlink (by simpa [Purpose.KeepsLink] using hlast) h

theorem Walks.walkHops (h : Walks d purpose slash onLink here hops t) :
    walkHops d purpose slash onLink here hops = .ok t := by
  induction h with
  | arrived => rfl
  | dot _ ih => simpa [Disk.walkHops] using ih
  | up _ ih => simpa [Disk.walkHops] using ih
  | free henters hnone =>
    obtain ⟨hdot, hup, hfile, hfits⟩ := henters
    simp_all [Disk.walkHops]
  | directory henters hdir _ ih =>
    obtain ⟨hdot, hup, hfile, hfits⟩ := henters
    simp_all [Disk.walkHops]
  | file henters hentry hslash =>
    obtain ⟨hdot, hup, hfile, hfits⟩ := henters
    cases slash <;> simp_all [Disk.walkHops]
  | kept henters hlink hkeeps =>
    obtain ⟨hdot, hup, hfile, hfits⟩ := henters
    simp_all [Disk.walkHops, Purpose.KeepsLink]
  | followed henters hlink hgo hon =>
    obtain ⟨hdot, hup, hfile, hfits⟩ := henters
    simp only [Disk.walkHops, if_neg hdot, if_neg hup, hlink]
    rw [if_neg (by simpa using hfile), if_neg (by simp [hfits]),
      if_neg (by simpa [Purpose.KeepsLink] using hgo)]
    exact hon

theorem walkHops_eq_ok_iff :
    walkHops d purpose slash onLink here hops = .ok t ↔ Walks d purpose slash onLink here hops t :=
  ⟨walks_of_walkHops, Walks.walkHops⟩

/-- The text of a path can be looked up at all. -/
structure Walkable (p : Path) : Prop where
  nulless : '\x00' ∉ p.text.toList
  notEmpty : p.text.isEmpty = false
  fits : pathFits p

theorem resolve_eq_ok_iff {p : Path} :
    d.resolve here purpose p = .ok t ↔
      Walkable p ∧
        walk d purpose maxLinks (endsInSlash p) (origin p here) (Disk.hops p) = .ok t := by
  rw [resolve]
  constructor
  · intro h
    split at h
    · simp at h
    rename_i hnul
    split at h
    · simp at h
    rename_i hempty
    split at h
    · simp at h
    rename_i hfits
    exact ⟨⟨by simpa using hnul, by simpa using hempty, by simpa using hfits⟩, h⟩
  · rintro ⟨⟨hnul, hempty, hfits⟩, h⟩
    rw [if_neg (by simpa using hnul), if_neg (by simp [hempty]), if_neg (by simp [hfits])]
    exact h

end Derivations

def Target.Sound (d : Disk) (purpose : Purpose) : Target → Prop
  | entry loc => ∃ e, d.get? loc = some e ∧ purpose.endsAt e
  | free dir name => d.get? dir = some .directory ∧ d.get? (dir ++ [name]) = none

/-- What a walk carries from place to place, and what it thereby knows of the target that it ends
at. -/
structure Survey (d : Disk) (purpose : Purpose) where
  here : Location → Prop
  target : Target → Prop
  root : here []
  up : ∀ loc, here loc → here loc.dropLast
  down : ∀ loc hop, here loc → d.get? (loc ++ [hop]) = some .directory → here (loc ++ [hop])
  ends : ∀ loc, here loc → target (.entry loc)
  entry : ∀ loc hop e, here loc → d.get? (loc ++ [hop]) = some e → purpose.endsAt e →
    target (.entry (loc ++ [hop]))
  free : ∀ loc hop, here loc → d.get? (loc ++ [hop]) = none → target (.free loc hop)

namespace Survey
variable {d : Disk} {purpose : Purpose} (v : Survey d purpose) {here : Location} {t : Target}
include v

theorem of_walkHops {slash : Bool} {onLink : OnLink} {hops : List String}
    (hlink : ∀ here target rest slash t, v.here here →
      onLink here target rest slash = .ok t → v.target t)
    (hhere : v.here here) (h : walkHops d purpose slash onLink here hops = .ok t) :
    v.target t := by
  rw [walkHops_eq_ok_iff] at h
  induction h with
  | arrived here => exact v.ends here hhere
  | dot _ ih => exact ih hhere
  | up _ ih => exact ih (v.up _ hhere)
  | free _ hnone => exact v.free _ _ hhere hnone
  | directory _ hdir _ ih => exact ih (v.down _ _ hhere hdir)
  | file _ hfile _ => exact v.entry _ _ _ hhere hfile (by simp [Purpose.endsAt])
  | kept _ htarget hkeeps =>
    refine v.entry _ _ _ hhere htarget ?_
    intro hfollows
    rcases hkeeps with rfl | ⟨rfl, -⟩
    · cases hfollows
    · cases hfollows
  | followed _ _ _ hon => exact hlink _ _ _ _ _ hhere hon

theorem origin (p : Path) (hhere : v.here here) : v.here (Disk.origin p here) := by
  rw [Disk.origin]
  split
  · exact v.root
  · exact hhere

theorem of_walk {links : Nat} {slash : Bool} {hops : List String} (hhere : v.here here)
    (h : walk d purpose links slash here hops = .ok t) : v.target t := by
  induction links generalizing slash here hops t with
  | zero =>
    rw [walk] at h
    exact v.of_walkHops (by simp) hhere h
  | succ n ih =>
    rw [walk] at h
    refine v.of_walkHops ?_ hhere h
    intro here target rest slash t hhere ht
    exact ih (v.origin target hhere) ht

theorem of_resolve {p : Path} (hhere : v.here here) (h : d.resolve here purpose p = .ok t) :
    v.target t :=
  v.of_walk (v.origin p hhere) (resolve_eq_ok_iff.1 h).2

end Survey

def directories (d : Disk) (purpose : Purpose) : Survey d purpose where
  here loc := d.get? loc = some .directory
  target t := t.Sound d purpose
  root := d.get?_root
  up _ h := get?_dropLast h
  down _ _ _ h := h
  ends _ h := ⟨.directory, h, by simp [Purpose.endsAt]⟩
  entry _ _ e _ h he := ⟨e, h, he⟩
  free _ _ h h' := ⟨h, h'⟩

theorem resolve_sound {d : Disk} {purpose : Purpose} {here : Location} {p : Path} {t : Target}
    (hhere : d.get? here = some .directory) (h : d.resolve here purpose p = .ok t) :
    t.Sound d purpose :=
  (directories d purpose).of_resolve hhere h

theorem get?_of_free {d : Disk} {purpose : Purpose} {here dir : Location} {p : Path}
    {name : String} (h : d.resolve here purpose p = .ok (.free dir name)) :
    d.get? (dir ++ [name]) = none := by
  let v : Survey d purpose :=
    { here := fun _ => True
      target := fun t => ∀ dir name, t = .free dir name → d.get? (dir ++ [name]) = none
      root := trivial
      up := fun _ _ => trivial
      down := fun _ _ _ _ => trivial
      ends := by simp
      entry := by simp
      free := by
        rintro loc hop - hnone dir name hfree
        obtain ⟨rfl, rfl⟩ := Target.free.inj hfree
        exact hnone }
  exact Survey.of_resolve v trivial h dir name rfl

theorem locate_eq_ok_iff {d : Disk} {here loc : Location} {p : Path} :
    d.locate here p = .ok loc ↔ d.resolve here .look p = .ok (.entry loc) := by
  rw [locate]
  split <;> rename_i h <;> simp [h]

theorem walkHops_slashless {d : Disk} {slash slash' : Bool} {onLink onLink' : OnLink}
    {here : Location} {hops : List String} {t : Target} (hslash : slash' → slash)
    (hlink : ∀ here target rest t, onLink here target rest slash = .ok t →
      onLink' here target rest slash' = .ok t)
    (h : walkHops d .look slash onLink here hops = .ok t) :
    walkHops d .look slash' onLink' here hops = .ok t := by
  rw [walkHops_eq_ok_iff] at h ⊢
  induction h with
  | arrived here => exact .arrived here
  | dot _ ih => exact .dot ih
  | up _ ih => exact .up ih
  | free henters hnone => exact .free (henters.to (by simp)) hnone
  | directory henters hdir _ ih => exact .directory (henters.to (by simp)) hdir ih
  | file henters hfile hend => exact .file (henters.to (by simp)) hfile (hend ∘ hslash)
  | kept _ _ hkeeps => simp [Purpose.KeepsLink] at hkeeps
  | followed henters htarget _ hon =>
    refine .followed (henters.to (by simp)) htarget ?_ (hlink _ _ _ _ hon)
    simp [Purpose.KeepsLink]

theorem walk_slashless {d : Disk} {links : Nat} {slash slash' : Bool} {here : Location}
    {hops : List String} {t : Target} (hslash : slash' → slash)
    (h : walk d .look links slash here hops = .ok t) :
    walk d .look links slash' here hops = .ok t := by
  induction links generalizing slash slash' here hops t with
  | zero =>
    rw [walk] at h ⊢
    exact walkHops_slashless hslash (by simp) h
  | succ n ih =>
    rw [walk] at h ⊢
    refine walkHops_slashless hslash (fun here target rest t => ih ?_) h
    simp only [Bool.or_eq_true]
    exact Or.imp_left hslash

theorem resolve_of_join_empty {d : Disk} {here : Location} {p : Path} {t : Target}
    (h : d.resolve here .look (p.join ⟨""⟩) = .ok t) : d.resolve here .look p = .ok t := by
  have habs : (⟨""⟩ : Path).isAbsolute = false := rfl
  have hhops : hops (p.join ⟨""⟩) = hops p := by
    rw [hops_join habs]
    simp [hops, Text.splitOn]
  have horigin : origin (p.join ⟨""⟩) here = origin p here := origin_join habs
  rw [Path.join, habs, if_neg (by simp)] at h hhops horigin
  split at h
  · simpa using h
  · rename_i hgap
    rw [if_neg hgap] at hhops horigin
    obtain ⟨⟨hnul, -, hfits⟩, hwalk⟩ := resolve_eq_ok_iff.1 h
    rw [hhops, horigin] at hwalk
    refine resolve_eq_ok_iff.2 ⟨⟨by simpa using hnul, by simp_all, ?_⟩, ?_⟩
    · simp only [pathFits, String.utf8ByteSize_append, decide_eq_true_eq] at hfits ⊢
      omega
    · exact walk_slashless (by simp [endsInSlash]) hwalk

theorem at?_eq_some_iff {d : Disk} {here : Location} {p : Path} {e : Entry} :
    d.at? here p = some e ↔
      ∃ loc, d.resolve here .look p = .ok (.entry loc) ∧ d.get? loc = some e := by
  rw [at?]
  split
  · rename_i loc h
    rw [locate_eq_ok_iff] at h
    simp [h]
  · rename_i h
    constructor
    · intro hnone
      cases hnone
    · rintro ⟨loc, hl, -⟩
      rw [locate_eq_ok_iff.2 hl] at h
      cases h

theorem isDirAt_iff {d : Disk} {here : Location} {p : Path} :
    d.isDirAt here p = true ↔
      ∃ loc, d.resolve here .look p = .ok (.entry loc) ∧ d.get? loc = some .directory := by
  rw [isDirAt, beq_iff_eq, at?_eq_some_iff]

theorem existsAt_iff {d : Disk} {here : Location} {p : Path} :
    d.existsAt here p = true ↔
      ∃ loc, d.resolve here .look p = .ok (.entry loc) ∧ (d.get? loc).isSome := by
  simp only [existsAt, Option.isSome_iff_exists, at?_eq_some_iff]
  constructor
  · rintro ⟨e, loc, hl, he⟩
    exact ⟨loc, hl, e, he⟩
  · rintro ⟨loc, hl, e, he⟩
    exact ⟨e, loc, hl, he⟩

end GemStaging.Disk
