import GemStaging.Proofs.Disk.Around
import GemStaging.Proofs.Path.Parent

/-!
When a walk succeeds. On a disk without links a path that is short enough (`Disk.Fits`) is walked
through directories to whatever comes behind them (`Plain.resolve_of_directories`,
`Plain.resolve_last`), and where no file is on its way it is refused only because something is
missing (`Plain.resolve_refused`).
-/

namespace GemStaging.Disk

open GemStaging.Path

/-- The system takes the path as it is: neither it nor one of its names is too long, and no
character in it ends it. -/
structure Fits (p : Path) : Prop where
  nulless : '\x00' ∉ p.text.toList
  short : pathFits p
  names : ∀ hop ∈ hops p, nameFits hop

instance (p : Path) : Decidable (Fits p) :=
  decidable_of_iff ('\x00' ∉ p.text.toList ∧ pathFits p ∧ ∀ hop ∈ hops p, nameFits hop)
    ⟨fun ⟨hnul, hshort, hnames⟩ => ⟨hnul, hshort, hnames⟩, fun h => ⟨h.nulless, h.short, h.names⟩⟩

theorem Fits.of_begins {p q : Path} (hp : Fits p) (h : Begins q p) : Fits q := by
  obtain ⟨more, hhops⟩ := h.hops
  obtain ⟨rest, htext, -⟩ := h
  constructor
  · intro hnul
    exact hp.nulless (by simp [htext, hnul])
  · have hsize : p.text = q.text ++ String.ofList rest := String.toList_inj.1 (by simp [htext])
    have hshort := hp.short
    simp only [pathFits, hsize, String.utf8ByteSize_append, decide_eq_true_eq] at hshort ⊢
    omega
  · intro hop hhop
    exact hp.names hop (by simp [hhops, hhop])

theorem Fits.walkable {p : Path} (hp : Fits p) (htext : ¬ p.text.isEmpty) : Walkable p where
  nulless := hp.nulless
  notEmpty := by simpa using htext
  fits := hp.short

/-- A walk of a disk without links has no use for them. -/
abbrev noLinks : OnLink := fun _ _ _ _ => .error .tooManyLinks

variable {d : Disk} {purpose : Purpose} {slash : Bool} {onLink : OnLink} {here loc : Location}
variable {p : Path} {front hops' : List String} {name : String}

theorem walkHops_append (rest : List String) (hfits : ∀ hop ∈ front, nameFits hop)
    (hdirs : ∀ x ∈ stopsFrom loc front, d.get? x = some .directory)
    (hfile : rest ≠ [] ∨ purpose ≠ .makeFile) :
    walkHops d purpose slash onLink loc (front ++ rest) =
      walkHops d purpose slash onLink (front.foldl step loc) rest := by
  induction front generalizing loc with
  | nil => rfl
  | cons hop front ih =>
    obtain ⟨hhop, hfront⟩ := List.forall_mem_cons.1 hfits
    obtain ⟨-, hdirs⟩ := List.forall_mem_cons.1 hdirs
    rw [List.foldl_cons, ← ih hfront hdirs, List.cons_append, walkHops]
    by_cases hdot : hop = "."
    · simp [step, hdot]
    by_cases hup : hop = ".."
    · simp [step, hup]
    have hstep : step loc hop = loc ++ [hop] := by rw [step, if_neg hdot, if_neg hup]
    have hdir : d.get? (loc ++ [hop]) = some .directory :=
      hdirs _ (hstep ▸ mem_stopsFrom_self front)
    have hgo : ((front ++ rest).isEmpty && slash && decide (purpose = .makeFile)) = false := by
      rcases hfile with hrest | hpurpose
      · simp [hrest]
      · simp [hpurpose]
    rw [if_neg hdot, if_neg hup, if_neg (by simp [hgo]), if_neg (by simp [hhop]), hdir, hstep]

section Plain
variable (hd : d.Plain)
include hd

theorem Plain.get?_eq_none (hfile : d.file? loc = none) (hdir : d.get? loc ≠ some .directory) :
    d.get? loc = none := by
  rw [file?] at hfile
  cases he : d.get? loc with
  | none => rfl
  | some e =>
    cases e with
    | file => simp [he] at hfile
    | directory => exact absurd he hdir
    | link target => exact absurd he (hd.linkless loc target)

theorem Plain.walkHops_refused {e : OsError} (hfits : ∀ hop ∈ hops', nameFits hop)
    (hfiles : ∀ x ∈ stopsFrom loc hops', d.file? x = none) (hpurpose : purpose ≠ .makeFile)
    (h : walkHops d purpose slash onLink loc hops' = .error e) : e = .notFound := by
  induction hops' generalizing loc with
  | nil => cases h
  | cons hop rest ih =>
    obtain ⟨hhop, hrest⟩ := List.forall_mem_cons.1 hfits
    obtain ⟨-, hfiles⟩ := List.forall_mem_cons.1 hfiles
    rw [walkHops] at h
    by_cases hdot : hop = "."
    · rw [if_pos hdot] at h
      exact ih hrest (by simpa [step, hdot] using hfiles) h
    by_cases hup : hop = ".."
    · rw [if_neg hdot, if_pos hup] at h
      exact ih hrest (by simpa [step, hup] using hfiles) h
    have hstep : step loc hop = loc ++ [hop] := by rw [step, if_neg hdot, if_neg hup]
    have hnofile : d.file? (loc ++ [hop]) = none := hfiles _ (hstep ▸ mem_stopsFrom_self rest)
    rw [if_neg hdot, if_neg hup, if_neg (by simp [hpurpose]), if_neg (by simp [hhop])] at h
    by_cases hdir : d.get? (loc ++ [hop]) = some .directory
    · rw [hdir] at h
      exact ih hrest (hstep ▸ hfiles) h
    · rw [hd.get?_eq_none hnofile hdir] at h
      simp only at h
      split at h
      · cases h
      · exact (Except.error.inj h).symm

variable (hp : Fits p) (htext : ¬ p.text.isEmpty)
include hp htext

theorem Plain.resolve_eq_walkHops :
    d.resolve here purpose p =
      walkHops d purpose (endsInSlash p) noLinks (origin p here) (hops p) := by
  obtain ⟨hnul, hempty, hshort⟩ := hp.walkable htext
  rw [resolve, if_neg (by simpa using hnul), if_neg (by simp [hempty]), if_neg (by simp [hshort]),
    show maxLinks = 39 + 1 from rfl, walk]
  exact hd.walkHops_congr fun _ _ => rfl

theorem Plain.resolve_of_directories (hdirs : ∀ x ∈ stops here p, d.get? x = some .directory)
    (hpurpose : purpose ≠ .makeFile) : d.resolve here purpose p = .ok (.entry (goal here p)) := by
  rw [hd.resolve_eq_walkHops hp htext, ← List.append_nil (hops p),
    walkHops_append [] hp.names hdirs (.inr hpurpose)]
  rfl

theorem Plain.resolve_refused {e : OsError} (hfiles : ∀ x ∈ stops here p, d.file? x = none)
    (hpurpose : purpose ≠ .makeFile) (h : d.resolve here purpose p = .error e) : e = .notFound := by
  rw [hd.resolve_eq_walkHops hp htext] at h
  exact hd.walkHops_refused hp.names hfiles hpurpose h

variable (hhops : hops p = front ++ [name]) (hdot : name ≠ ".") (hup : name ≠ "..")
variable (hdirs : ∀ x ∈ stopsFrom (origin p here) front, d.get? x = some .directory)
include hhops hdot hup hdirs

theorem Plain.resolve_last (hslash : purpose = .makeFile → endsInSlash p = false) :
    d.resolve here purpose p =
      match d.get? (front.foldl step (origin p here) ++ [name]) with
      | none => .ok (.free (front.foldl step (origin p here)) name)
      | some .directory => .ok (.entry (front.foldl step (origin p here) ++ [name]))
      | some (.file ..) =>
        if !endsInSlash p || purpose = .makeDirectory then
          .ok (.entry (front.foldl step (origin p here) ++ [name]))
        else .error .notDirectory
      | some (.link _) => .error .tooManyLinks := by
  have hname : nameFits name := hp.names name (by simp [hhops])
  have hfront : ∀ hop ∈ front, nameFits hop := fun hop hhop => hp.names hop (by simp [hhops, hhop])
  rw [hd.resolve_eq_walkHops hp htext, hhops,
    walkHops_append [name] hfront hdirs (.inl (List.cons_ne_nil _ _)), walkHops, if_neg hdot,
    if_neg hup, if_neg (by simpa using fun h h' => by simp [hslash h'] at h),
    if_neg (by simp [hname])]
  rcases hentry : d.get? (front.foldl step (origin p here) ++ [name]) with
    _ | ⟨content, mode⟩ | _ | target
  · simp
  · simp
  · simp [walkHops]
  · exact absurd hentry (hd.linkless _ _)

end Plain

end GemStaging.Disk
