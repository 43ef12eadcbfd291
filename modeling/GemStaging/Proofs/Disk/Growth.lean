import GemStaging.Proofs.Disk.Listing
import Mathlib.Order.Defs.Unbundled

/-!
Disks that only grow. `c.Grows d` says that nothing was removed between `c` and `d`: directories
and links stay, and a file stays a file, whatever it holds. A path that led somewhere leads there
still (`Grows.arrives`).
-/

namespace GemStaging

/-- What may become of an entry that is not removed: a file may be rewritten. -/
inductive Entry.Continues : Entry → Entry → Prop where
  | same (e : Entry) : Continues e e
  | rewritten {content content' : Bytes} {mode mode' : Mode} :
      Continues (.file content mode) (.file content' mode')

theorem Entry.Continues.trans {e f g : Entry} (h : e.Continues f) (h' : f.Continues g) :
    e.Continues g := by
  cases h with
  | same => exact h'
  | rewritten =>
    cases h' with
    | same => exact .rewritten
    | rewritten => exact .rewritten

namespace Mode

/-- A file in this mode can be written over, and is in this mode again then. -/
structure Steady (mode : Mode) : Prop where
  writable : mode.writable
  sound : mode.sound

theorem steady_data : data.Steady := ⟨rfl, rfl⟩

theorem steady_mended {mode : Mode} (h : mode.writable) : mode.mended.Steady := ⟨h, rfl⟩

end Mode

namespace Disk

/-- Nothing is removed on the way from one disk to another. -/
def Grows (c d : Disk) : Prop :=
  ∀ loc e, c.get? loc = some e → ∃ e', d.get? loc = some e' ∧ e.Continues e'

/-- A file may come to stand at a location: nothing stands there, or a file. -/
def TakesFile (d : Disk) (loc : Location) : Prop :=
  d.get? loc = none ∨ ∃ content mode, d.get? loc = some (.file content mode)

theorem TakesFile.put {d : Disk} {dir : Location} {name : String} (h : d.TakesFile (dir ++ [name]))
    (content : Bytes) (mode : Mode) :
    (d.put dir name (.file content mode)).TakesFile (dir ++ [name]) := by
  by_cases ha : d.admits dir name (.file content mode)
  · exact .inr ⟨content, mode, by rw [get?_put ha, if_pos rfl]⟩
  · simpa [Disk.put, ha] using h

/-- A file may be opened for writing at a location: nothing stands there, or a file that may be
written. -/
def Writable (d : Disk) (loc : Location) : Prop :=
  d.get? loc = none ∨ ∃ content mode, d.get? loc = some (.file content mode) ∧ mode.writable

namespace Writable
variable {c d : Disk} {loc : Location}

theorem takesFile (h : d.Writable loc) : d.TakesFile loc :=
  h.imp_right fun ⟨content, mode, hfile, _⟩ => ⟨content, mode, hfile⟩

theorem ne_directory (h : d.Writable loc) : d.get? loc ≠ some .directory := by
  rcases h with hnone | ⟨content, mode, hfile, -⟩
  · simp [hnone]
  · simp [hfile]

end Writable

namespace Grows
variable {b c d : Disk} {loc : Location}

theorem refl (d : Disk) : d.Grows d := fun _ e h => ⟨e, h, .same e⟩

theorem trans (h : b.Grows c) (h' : c.Grows d) : b.Grows d := by
  intro loc e he
  obtain ⟨f, hf, hef⟩ := h loc e he
  obtain ⟨g, hg, hfg⟩ := h' loc f hf
  exact ⟨g, hg, hef.trans hfg⟩

instance : IsPreorder Disk Grows where
  refl := refl
  trans _ _ _ := trans

theorem isSome (h : c.Grows d) (hc : (c.get? loc).isSome) : (d.get? loc).isSome := by
  obtain ⟨e, he⟩ := Option.isSome_iff_exists.1 hc
  obtain ⟨e', he', -⟩ := h loc e he
  simp [he']

theorem directory (h : c.Grows d) (hc : c.get? loc = some .directory) :
    d.get? loc = some .directory := by
  obtain ⟨e', he', hce⟩ := h loc _ hc
  cases hce
  exact he'

theorem link (h : c.Grows d) {target : Path} (hc : c.get? loc = some (.link target)) :
    d.get? loc = some (.link target) := by
  obtain ⟨e', he', hce⟩ := h loc _ hc
  cases hce
  exact he'

theorem file (h : c.Grows d) {content : Bytes} {mode : Mode}
    (hc : c.get? loc = some (.file content mode)) :
    ∃ content' mode', d.get? loc = some (.file content' mode') := by
  obtain ⟨e', he', hce⟩ := h loc _ hc
  cases hce with
  | same => exact ⟨content, mode, he'⟩
  | rewritten => exact ⟨_, _, he'⟩

end Grows

/-- Entries are added on the way from one disk to another, and none is changed. -/
def Extends (c d : Disk) : Prop :=
  ∀ loc e, c.get? loc = some e → d.get? loc = some e

namespace Extends
variable {b c d : Disk}

instance : IsPreorder Disk Extends where
  refl _ _ _ h := h
  trans _ _ _ h h' loc e he := h' loc e (h loc e he)

theorem grows (h : c.Extends d) : c.Grows d := fun loc e he => ⟨e, h loc e he, .same e⟩

theorem writable (h : c.Extends d) {loc : Location} (hd : d.Writable loc) : c.Writable loc := by
  cases hc : c.get? loc with
  | none => exact .inl hc
  | some e => exact .inr (by simpa [Writable, h loc e hc, hc] using hd)

theorem put_new {dir : Location} {name : String} (h : d.get? (dir ++ [name]) = none) (e : Entry) :
    d.Extends (d.put dir name e) := by
  intro loc f hf
  by_cases ha : d.admits dir name e
  · rw [get?_put ha, if_neg]
    · exact hf
    · rintro rfl
      simp [h] at hf
  · simpa [put, ha] using hf

end Extends

theorem Grows.put_file {d : Disk} {dir : Location} {name : String} (h : d.TakesFile (dir ++ [name]))
    (content : Bytes) (mode : Mode) : d.Grows (d.put dir name (.file content mode)) := by
  rcases h with h | ⟨content', mode', h⟩
  · exact (Extends.put_new h _).grows
  · intro loc f hf
    by_cases ha : d.admits dir name (.file content mode)
    · rw [get?_put ha]
      split
      · rename_i hl
        obtain rfl : f = .file content' mode' := by
          rw [hl, h] at hf
          exact (Option.some.inj hf).symm
        exact ⟨_, rfl, .rewritten⟩
      · exact ⟨f, hf, .same f⟩
    · simpa [put, ha] using Grows.refl d loc f hf

/-- A walk that found its target on one disk is taken to it on a grown one: what stands there now
is a directory, or a file that the walk could also name. -/
def Target.Settled (d : Disk) (purpose : Purpose) (t : Target) : Prop :=
  d.get? t.loc = some .directory ∨
    (∃ content mode, d.get? t.loc = some (.file content mode)) ∧
      (purpose = .makeFile ∨ purpose = .look ∧ t = .entry t.loc)

section Arrival
variable {c d : Disk} {purpose purpose' : Purpose}

theorem walkHops_arrives (hg : c.Grows d) (hfollow : purpose' = .look ∨ purpose' = purpose)
    (hpurpose : purpose'.follows) {slash : Bool} {onLink onLink' : OnLink} {here : Location}
    {hops : List String} {t : Target}
    (hlink : ∀ here target rest slash t, onLink here target rest slash = .ok t →
      t.Settled d purpose → onLink' here target rest slash = .ok (.entry t.loc))
    (h : walkHops c purpose slash onLink here hops = .ok t) (ht : t.Settled d purpose) :
    walkHops d purpose' slash onLink' here hops = .ok (.entry t.loc) := by
  have hfile : slash → purpose' = .makeFile → slash ∧ purpose = .makeFile := by
    rintro hslash rfl
    rcases hfollow with h | h
    · cases h
    · exact ⟨hslash, h.symm⟩
  rw [walkHops_eq_ok_iff] at h ⊢
  induction h with
  | arrived here => exact .arrived here
  | dot _ ih => exact .dot (ih ht)
  | up _ ih => exact .up (ih ht)
  | free henters _ =>
    -- the name was free: what stands there now is what the target says
    rcases ht with hdir | ⟨⟨content, mode, hentry⟩, hp⟩
    · exact .directory (henters.to hfile) hdir (.arrived _)
    · refine .file (henters.to hfile) hentry ?_
      intro hslash
      rcases hp with rfl | ⟨-, hp⟩
      · exact absurd ⟨rfl, hslash, rfl⟩ henters.fileless
      · cases hp
  | directory henters hdir _ ih => exact .directory (henters.to hfile) (hg.directory hdir) (ih ht)
  | file henters hentry hend =>
    obtain ⟨content, mode, hentry'⟩ := hg.file hentry
    refine .file (henters.to hfile) hentry' ?_
    intro hslash
    obtain rfl := hend hslash
    rcases ht with hdir | ⟨-, hp⟩
    · simp [Target.loc, hentry'] at hdir
    · simp at hp
  | kept _ htarget _ =>
    rcases ht with hdir | ⟨⟨content, mode, hentry⟩, -⟩
    · simp [Target.loc, hg.link htarget] at hdir
    · simp [Target.loc, hg.link htarget] at hentry
  | followed henters htarget _ hon =>
    refine .followed (henters.to hfile) (hg.link htarget) ?_ (hlink _ _ _ _ _ hon ht)
    rintro ⟨-, rfl | ⟨rfl, -⟩⟩
    · cases hpurpose
    · cases hpurpose

theorem walk_arrives (hg : c.Grows d) (hfollow : purpose' = .look ∨ purpose' = purpose)
    (hpurpose : purpose'.follows) {links : Nat} {slash : Bool} {here : Location}
    {hops : List String} {t : Target} (h : walk c purpose links slash here hops = .ok t)
    (ht : t.Settled d purpose) :
    walk d purpose' links slash here hops = .ok (.entry t.loc) := by
  induction links generalizing slash here hops t with
  | zero =>
    rw [walk] at h ⊢
    exact walkHops_arrives hg hfollow hpurpose (by simp) h ht
  | succ n ih =>
    rw [walk] at h ⊢
    exact walkHops_arrives hg hfollow hpurpose (fun _ _ _ _ _ ht hs => ih ht hs) h ht

/-- A path that led to a target leads to it on a grown disk, to look at it or to open it again. -/
theorem Grows.arrives (hg : c.Grows d) (hfollow : purpose' = .look ∨ purpose' = purpose)
    (hpurpose : purpose'.follows) {here : Location} {p : Path} {t : Target}
    (h : c.resolve here purpose p = .ok t) (ht : t.Settled d purpose) :
    d.resolve here purpose' p = .ok (.entry t.loc) := by
  rw [resolve_eq_ok_iff] at h ⊢
  exact h.imp_right fun hwalk => walk_arrives hg hfollow hpurpose hwalk ht

theorem walkHops_stops {slash : Bool} {onLink onLink' : OnLink} {here loc : Location}
    {hops : List String}
    (hlink : ∀ here target rest slash loc, onLink here target rest slash = .ok (.entry loc) →
      ∃ loc', onLink' here target rest slash = .ok (.entry loc'))
    (h : walkHops d .look slash onLink here hops = .ok (.entry loc)) :
    ∃ loc', walkHops d .makeDirectory slash onLink' here hops = .ok (.entry loc') := by
  generalize hentry : Target.entry loc = t at h
  simp only [walkHops_eq_ok_iff] at h ⊢
  induction h with
  | arrived here => exact ⟨here, .arrived here⟩
  | dot _ ih =>
    obtain ⟨loc', hl⟩ := ih hentry
    exact ⟨loc', .dot hl⟩
  | up _ ih =>
    obtain ⟨loc', hl⟩ := ih hentry
    exact ⟨loc', .up hl⟩
  | free => cases hentry
  | directory henters hdir _ ih =>
    obtain ⟨loc', hl⟩ := ih hentry
    exact ⟨loc', .directory (henters.to (by simp)) hdir hl⟩
  | file henters hfile _ => exact ⟨_, .file (henters.to (by simp)) hfile fun _ => rfl⟩
  | kept _ _ hkeeps => simp [Purpose.KeepsLink] at hkeeps
  | @followed here hop rest target t henters htarget _ hon =>
    have henters' : Enters .makeDirectory slash hop rest := henters.to (by simp)
    cases rest with
    | nil => exact ⟨_, .kept henters' htarget (.inl rfl)⟩
    | cons next more =>
      subst hentry
      obtain ⟨loc', hl⟩ := hlink _ _ _ _ _ hon
      exact ⟨loc', .followed henters' htarget (by simp) hl⟩

theorem walk_stops {links : Nat} {slash : Bool} {here loc : Location} {hops : List String}
    (h : walk d .look links slash here hops = .ok (.entry loc)) :
    ∃ loc', walk d .makeDirectory links slash here hops = .ok (.entry loc') := by
  induction links generalizing slash here hops loc with
  | zero =>
    rw [walk] at h ⊢
    exact walkHops_stops (by simp) h
  | succ n ih =>
    rw [walk] at h ⊢
    exact walkHops_stops (fun _ _ _ _ _ hl => ih hl) h

theorem resolve_stops {here loc : Location} {p : Path}
    (h : d.resolve here .look p = .ok (.entry loc)) :
    ∃ loc', d.resolve here .makeDirectory p = .ok (.entry loc') := by
  obtain ⟨hwalkable, hwalk⟩ := resolve_eq_ok_iff.1 h
  obtain ⟨loc', hl⟩ := walk_stops hwalk
  exact ⟨loc', resolve_eq_ok_iff.2 ⟨hwalkable, hl⟩⟩

/-- A name that is free to a look that stops at links is free to make a file, unless a slash ends
the path. -/
theorem walkHops_free {onLink onLink' : OnLink} {here dir : Location} {hops : List String}
    {name : String}
    (hlink : ∀ here target rest, onLink here target rest false = .ok (.free dir name) →
      rest ≠ [] → onLink' here target rest false = .ok (.free dir name))
    (h : walkHops d .lookAtLink false onLink here hops = .ok (.free dir name)) :
    walkHops d .makeFile false onLink' here hops = .ok (.free dir name) := by
  generalize hfree : Target.free dir name = t at h
  simp only [walkHops_eq_ok_iff] at h ⊢
  induction h with
  | arrived => cases hfree
  | dot _ ih => exact .dot (ih hfree)
  | up _ ih => exact .up (ih hfree)
  | free henters hnone => exact .free (henters.to (by simp)) hnone
  | directory henters hdir _ ih => exact .directory (henters.to (by simp)) hdir (ih hfree)
  | file => cases hfree
  | kept => cases hfree
  | @followed here hop rest target t henters htarget hkeeps hon =>
    subst hfree
    have hrest : rest ≠ [] := fun hrest => hkeeps ⟨hrest, .inr ⟨rfl, rfl⟩⟩
    exact .followed (henters.to (by simp)) htarget (fun h => hrest h.1) (hlink _ _ _ hon hrest)

theorem walk_free {links : Nat} {here dir : Location} {hops : List String} {name : String}
    (h : walk d .lookAtLink links false here hops = .ok (.free dir name)) :
    walk d .makeFile links false here hops = .ok (.free dir name) := by
  induction links generalizing here hops with
  | zero =>
    rw [walk] at h ⊢
    exact walkHops_free (by simp) h
  | succ n ih =>
    rw [walk] at h ⊢
    refine walkHops_free ?_ h
    intro here target rest hl hrest
    simp only [Bool.false_or, List.isEmpty_eq_false_iff.2 hrest, Bool.false_and] at hl ⊢
    exact ih hl

theorem resolve_free {here dir : Location} {p : Path} {name : String}
    (hslash : endsInSlash p = false) (h : d.resolve here .lookAtLink p = .ok (.free dir name)) :
    d.resolve here .makeFile p = .ok (.free dir name) := by
  rw [resolve_eq_ok_iff, hslash] at h ⊢
  exact h.imp_right walk_free

end Arrival

section Paths
variable {c d : Disk} {here loc : Location} {p : Path}

theorem Grows.isDirAt (hg : c.Grows d) (h : c.isDirAt here p) : d.isDirAt here p := by
  obtain ⟨loc, hl, hdir⟩ := isDirAt_iff.1 h
  have hdir := hg.directory hdir
  exact isDirAt_iff.2 ⟨loc, hg.arrives (.inl rfl) rfl hl (.inl hdir), hdir⟩

theorem get?_of_look (hhere : c.get? here = some .directory)
    (h : c.resolve here .look p = .ok (.entry loc)) :
    c.get? loc = some .directory ∨ ∃ content mode, c.get? loc = some (.file content mode) := by
  obtain ⟨e, he, hends⟩ := resolve_sound hhere h
  cases e with
  | file content mode => exact .inr ⟨content, mode, he⟩
  | directory => exact .inl he
  | link target => exact absurd rfl (hends rfl target)

theorem Grows.existsAt (hg : c.Grows d) (hhere : c.get? here = some .directory)
    (h : c.existsAt here p) : d.existsAt here p := by
  obtain ⟨loc, hl, hsome⟩ := existsAt_iff.1 h
  refine existsAt_iff.2 ⟨loc, hg.arrives (.inl rfl) rfl hl ?_, hg.isSome hsome⟩
  rcases get?_of_look hhere hl with hdir | ⟨content, mode, hfile⟩
  · exact .inl (hg.directory hdir)
  · exact .inr ⟨hg.file hfile, .inr ⟨rfl, rfl⟩⟩

theorem Grows.mem_namesAt (hg : c.Grows d) {name : String} (h : name ∈ c.namesAt here p) :
    name ∈ d.namesAt here p := by
  obtain ⟨loc, hl, hsome⟩ := mem_namesAt_iff.1 h
  have hdir := hg.directory (c.get?_parent hsome)
  exact mem_namesAt_iff.2 ⟨loc, hg.arrives (.inl rfl) rfl hl (.inl hdir), hg.isSome hsome⟩

end Paths

end Disk

end GemStaging
