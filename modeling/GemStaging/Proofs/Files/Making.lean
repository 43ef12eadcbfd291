import GemStaging.Proofs.Disk.Reaching
import GemStaging.Proofs.Files.Sparing

/-!
When directories can be made. On a disk without links the directories of a path are made exactly
where no file stands on its way (`Files.ensureDir_succeeds`), except that a path may end in a dot
only behind a directory that is there.
-/

namespace GemStaging

open Effect Disk GemStaging.Path

variable {here : Location} {p q : Path} {c d : Disk}

namespace Disk

/-- Nothing is in the way of the directories of a path. -/
structure Makeable (here : Location) (p : Path) (d : Disk) : Prop where
  fits : Fits p
  fileless : ∀ x ∈ stops here p, d.file? x = none
  settled : (hops p).getLast? = some "." → d.get? (goal here p) = some .directory

theorem Makeable.of_makes (h : Makeable here p c) (hc : c.Plain) (hmakes : OnlyMakes c d) :
    Makeable here p d where
  fits := h.fits
  fileless x hx := (((hmakes hc).2 x id).file?_eq).trans (h.fileless x hx)
  settled hlast := ((hmakes hc).2 _ id).directory (h.settled hlast)

theorem foldl_step_dots {loc : Location} {dots : List String} (h : ∀ hop ∈ dots, hop = ".") :
    dots.foldl step loc = loc := by
  induction dots with
  | nil => rfl
  | cons hop rest ih =>
    obtain ⟨rfl, hrest⟩ := List.forall_mem_cons.1 h
    exact ih hrest

theorem eq_of_mem_stopsFrom_dots {loc x : Location} {dots : List String}
    (h : ∀ hop ∈ dots, hop = ".") (hx : x ∈ stopsFrom loc dots) : x = loc := by
  induction dots with
  | nil => simpa [stopsFrom] using hx
  | cons hop rest ih =>
    obtain ⟨rfl, hrest⟩ := List.forall_mem_cons.1 h
    exact (List.mem_cons.1 hx).elim id fun hx => ih hrest hx

theorem directory_of_dots (hhere : d.get? here = some .directory) (h : ∀ hop ∈ hops p, hop = ".") :
    ∀ x ∈ stops here p, d.get? x = some .directory := by
  intro x hx
  rw [eq_of_mem_stopsFrom_dots h hx]
  exact (directories d .look).origin p hhere

theorem isDirAt_of_stops (hd : d.Plain) (hp : Fits p) (htext : ¬ p.text.isEmpty)
    (hdirs : ∀ x ∈ stops here p, d.get? x = some .directory) : d.isDirAt here p :=
  isDirAt_iff.2 ⟨_, hd.resolve_of_directories hp htext hdirs (by simp),
    hdirs _ (goal_mem_stops here p)⟩

theorem stops_of_isDirAt (hd : d.Plain) (hhere : d.get? here = some .directory)
    (h : d.isDirAt here p) : ∀ x ∈ stops here p, d.get? x = some .directory := by
  obtain ⟨loc, hl, hdir⟩ := isDirAt_iff.1 h
  obtain rfl : loc = goal here p := hd.loc_of_resolve hl
  intro x hx
  rcases hd.directory_of_resolve hhere hl x hx with hx | rfl
  · exact hx
  · exact hdir

theorem Makeable.parent (h : Makeable here p d) (hhere : d.get? here = some .directory)
    {last : String} {dots dots' : List String} (hparent : p.parent? = some q)
    (hleads : Leads q p last dots dots') : Makeable here q d where
  fits := h.fits.of_begins (begins_of_parent? hparent)
  fileless x hx := h.fileless x (mem_stops_of_parent? hparent hx)
  settled hdot := by
    rw [goal, hleads.ends hdot, List.foldl_cons, step, if_pos rfl]
    exact (directories d .look).origin q hhere

theorem length_parent {last : String} {dots dots' : List String} (hparent : p.parent? = some q)
    (hleads : Leads q p last dots dots') : q.text.length < p.text.length := by
  obtain ⟨rest, htext, -⟩ := begins_of_parent? hparent
  have hrest : rest ≠ [] := by
    rintro rfl
    obtain rfl : p = q := by
      cases p
      cases q
      simpa [String.toList_inj] using htext
    have hlength := congrArg List.length hleads.hops_eq
    simp at hlength
  have hpositive := List.length_pos_of_ne_nil hrest
  rw [← String.length_toList, ← String.length_toList, htext, List.length_append]
  omega

end Disk

namespace Access

theorem makeDir_of_isDirAt (h : d.isDirAt here p) : makeDir p here d = (.error .exists, d) := by
  obtain ⟨loc, hl, -⟩ := isDirAt_iff.1 h
  obtain ⟨loc', hl'⟩ := resolve_stops hl
  simp [makeDir, hl']

theorem settle_of_isDirAt {e : OsError} (h : d.isDirAt here p) :
    settle p e here d = (.ok (), d) := by
  simp [settle, bind_apply, isDir, h]

theorem makeOrKeepDir_of_isDirAt (h : d.isDirAt here p) :
    makeOrKeepDir p here d = (.ok (), d) := by
  rw [makeOrKeepDir, bind_apply_ok (attempt_of_eq (makeDir_of_isDirAt h))]
  exact settle_of_isDirAt h

theorem makeOrKeepDir_succeeds (hd : d.Plain) (h : Makeable here p d) (htext : ¬ p.text.isEmpty)
    {last : String} {dots dots' : List String} (hparent : p.parent? = some q)
    (hleads : Leads q p last dots dots') (hq : ∀ x ∈ stops here q, d.get? x = some .directory) :
    ∃ d', makeOrKeepDir p here d = (.ok (), d') := by
  have horigin : origin q here = origin p here := by
    rw [origin, (begins_of_parent? hparent).isAbsolute, origin]
  have hgoal : (hops q ++ dots).foldl step (origin p here) = goal here q := by
    rw [List.foldl_append, foldl_step_dots hleads.idle, ← horigin, goal]
  have hfront : ∀ x ∈ stopsFrom (origin p here) (hops q ++ dots), d.get? x = some .directory := by
    intro x hx
    rcases mem_stopsFrom_append_iff.1 hx with hx | hx
    · exact hq x (by rwa [stops, horigin])
    · rw [eq_of_mem_stopsFrom_dots hleads.idle hx, ← horigin]
      exact hq _ (goal_mem_stops here q)
  have hlast : goal here p = step (goal here q) last := by
    rw [goal, hleads.hops_eq, List.foldl_append, hgoal, List.foldl_cons,
      foldl_step_dots hleads.idle']
  by_cases hdir : d.get? (goal here p) = some .directory
  · -- every place on the way is a directory then
    have hdirs : ∀ x ∈ stops here p, d.get? x = some .directory := by
      intro x hx
      rw [stops, hleads.hops_eq, mem_stopsFrom_append_iff, hgoal] at hx
      rcases hx with hx | hx
      · exact hfront x hx
      · rcases List.mem_cons.1 hx with rfl | hx
        · exact hq _ (goal_mem_stops here q)
        · rwa [eq_of_mem_stopsFrom_dots hleads.idle' hx, ← hlast]
    exact ⟨d, makeOrKeepDir_of_isDirAt (isDirAt_of_stops hd h.fits htext hdirs)⟩
  · have hup : last ≠ ".." := by
      rintro rfl
      exact hdir (hlast ▸ get?_dropLast (hq _ (goal_mem_stops here q)))
    have hnone := hd.get?_eq_none (h.fileless _ (goal_mem_stops here p)) hdir
    obtain rfl : dots' = [] := by
      rcases List.eq_nil_or_concat dots' with hnil | ⟨init, final, rfl⟩
      · exact hnil
      · refine absurd (h.settled ?_) hdir
        rw [hleads.hops_eq, hleads.idle' final (by simp), List.concat_eq_append,
          ← List.cons_append, ← List.append_assoc, List.getLast?_concat]
    rw [hlast, step, if_neg hleads.notDot, if_neg hup, ← hgoal] at hnone
    have hresolve : d.resolve here .makeDirectory p = .ok (.free (goal here q) last) := by
      rw [hd.resolve_last h.fits htext hleads.hops_eq hleads.notDot hup hfront (by simp), hnone,
        hgoal]
    have hmake : makeDir p here d = (.ok (), d.put (goal here q) last .directory) := by
      rw [makeDir, hresolve]
    refine ⟨d.put (goal here q) last .directory, ?_⟩
    rw [makeOrKeepDir, bind_apply_ok (attempt_of_eq hmake)]
    rfl

theorem makeDirsFrom_of_parent {fuel : Nat} (hmake : makeDir p here c = (.error .notFound, c))
    (hparent : p.parent? = some q)
    (hq : q.text.isEmpty ∧ d = c ∨
      ¬ q.text.isEmpty ∧ makeDirsFrom fuel q here c = (.ok (), d)) :
    makeDirsFrom (fuel + 1) p here c = makeOrKeepDir p here d := by
  rw [makeDirsFrom, bind_apply_ok (attempt_of_eq hmake)]
  simp only [hparent]
  rcases hq with ⟨hempty, rfl⟩ | ⟨hempty, hmade⟩
  · simp [hempty]
  · simpa [hempty] using bind_apply_ok hmade

/-- One attempt to make a directory where nothing is in the way: it is there then, or something
above it is missing. -/
theorem makeDirsFrom_cases (fuel : Nat) (hc : c.Plain) (hhere : c.get? here = some .directory)
    (h : Makeable here p c) (htext : ¬ p.text.isEmpty) :
    (∃ d, makeDirsFrom (fuel + 1) p here c = (.ok (), d) ∧ d.isDirAt here p) ∨
      makeDir p here c = (.error .notFound, c) ∧
        ¬ ∀ x ∈ stops here p, c.get? x = some .directory := by
  cases hresolve : c.resolve here .makeDirectory p with
  | error e =>
    obtain rfl : e = .notFound := hc.resolve_refused h.fits htext h.fileless (by simp) hresolve
    refine .inr ⟨by rw [makeDir, hresolve], fun hdirs => ?_⟩
    simp [hc.resolve_of_directories h.fits htext hdirs] at hresolve
  | ok t =>
    left
    cases t with
    | free dir name =>
      have hmake : makeDir p here c = (.ok (), c.put dir name .directory) := by
        rw [makeDir, hresolve]
      refine ⟨_, ?_, isDirAt_of_makeDir hhere hmake⟩
      rw [makeDirsFrom, bind_apply_ok (attempt_of_eq hmake)]
      rfl
    | entry loc =>
      -- what is there already is no file, so it is a directory
      obtain ⟨e, he, -⟩ := resolve_sound hhere hresolve
      obtain rfl : loc = goal here p := hc.loc_of_resolve hresolve
      have hdir : c.get? (goal here p) = some .directory := by
        by_contra hdir
        simp [hc.get?_eq_none (h.fileless _ (goal_mem_stops here p)) hdir] at he
      have hthere : c.isDirAt here p :=
        isDirAt_iff.2 ⟨_, (Grows.refl c).arrives (.inl rfl) rfl hresolve (.inl hdir), hdir⟩
      refine ⟨c, ?_, hthere⟩
      rw [makeDirsFrom, bind_apply_ok (attempt_of_eq (makeDir_of_isDirAt hthere))]
      exact settle_of_isDirAt hthere

theorem makeDirsFrom_makes (fuel : Nat) (p : Path) : Moves OnlyMakes here (makeDirsFrom fuel p) :=
  makeDirsFrom_moves (fun _ _ _ _ => trivial) (fun p _ => makeDir_spares p) fuel trivial

theorem makeDirsFrom_succeeds (fuel : Nat) (hfuel : p.text.length < fuel) (hc : c.Plain)
    (hhere : c.get? here = some .directory) (h : Makeable here p c) (htext : ¬ p.text.isEmpty) :
    ∃ d, makeDirsFrom fuel p here c = (.ok (), d) ∧ d.isDirAt here p := by
  induction fuel generalizing p with
  | zero => omega
  | succ fuel ih =>
    rcases makeDirsFrom_cases fuel hc hhere h htext with hdone | ⟨hmake, hdirs⟩
    · exact hdone
    have hdots : ¬ ∀ hop ∈ hops p, hop = "." := fun hdots => hdirs (directory_of_dots hhere hdots)
    cases hparent : p.parent? with
    | none => exact absurd (fun _ => eq_dot_of_parent?_eq_none hparent) hdots
    | some q =>
      obtain ⟨last, dots, dots', hleads⟩ := (hops_of_parent? hparent).resolve_left hdots
      -- the directories of the parent are there in the end, whether they were made or not
      obtain ⟨c', hmade, hmakes, hq⟩ : ∃ c',
          (q.text.isEmpty ∧ c' = c ∨ ¬ q.text.isEmpty ∧ makeDirsFrom fuel q here c = (.ok (), c')) ∧
            OnlyMakes c c' ∧ ∀ x ∈ stops here q, c'.get? x = some .directory := by
        by_cases hempty : q.text.isEmpty
        · obtain rfl : q = ⟨""⟩ := congrArg Path.mk (String.isEmpty_iff.1 hempty)
          exact ⟨c, .inl ⟨hempty, rfl⟩, refl_of _ c,
            directory_of_dots hhere (by simp [hops, Text.splitOn])⟩
        · have hlength := length_parent hparent hleads
          obtain ⟨c', hmade, hthere⟩ := ih (by omega) (h.parent hhere hparent hleads) hempty
          have hmakes := (makeDirsFrom_makes fuel q).of_eq hmade
          exact ⟨c', .inr ⟨hempty, hmade⟩, hmakes, stops_of_isDirAt (hmakes hc).1
            (((hmakes hc).2 here id).directory hhere) hthere⟩
      obtain ⟨d, hkeep⟩ :=
        makeOrKeepDir_succeeds (hmakes hc).1 (h.of_makes hc hmakes) htext hparent hleads hq
      rw [makeDirsFrom_of_parent hmake hparent hmade]
      exact ⟨d, hkeep, isDirAt_of_makeOrKeepDir (((hmakes hc).2 here id).directory hhere) hkeep⟩

theorem makeDirs_succeeds (hc : c.Plain) (hhere : c.get? here = some .directory)
    (h : Makeable here p c) : ∃ d, makeDirs p here c = (.ok (), d) := by
  rw [makeDirs]
  split
  · exact ⟨c, rfl⟩
  · rename_i htext
    obtain ⟨d, hmade, -⟩ := makeDirsFrom_succeeds _ (Nat.lt_succ_self _) hc hhere h htext
    exact ⟨d, hmade⟩

end Access

namespace Files

theorem ensureDir_succeeds (hc : c.Plain) (hhere : c.get? here = some .directory)
    (h : Makeable here p c) : ∃ d, ensureDir p here c = (.ok (), d) := by
  obtain ⟨d, hmade⟩ := Access.makeDirs_succeeds hc hhere h
  exact ⟨d, mapError_eq_ok_iff.2 hmade⟩

theorem ensureDir_of_stops (hd : d.Plain) (hp : Fits p)
    (hdirs : ∀ x ∈ stops here p, d.get? x = some .directory) :
    ensureDir p here d = (.ok (), d) := by
  rw [ensureDir, mapError_eq_ok_iff]
  by_cases htext : p.text.isEmpty
  · rw [Access.makeDirs, if_pos htext]
    rfl
  · exact Access.makeDirs_of_isDirAt (isDirAt_of_stops hd hp htext hdirs)

end Files

end GemStaging
