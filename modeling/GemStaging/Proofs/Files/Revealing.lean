import GemStaging.Proofs.Files.Clearing
import GemStaging.Proofs.Path.Parent

/-!
What making directories brings to light. A path whose directory is missing leads to nothing; once
the directory is made it may lead to something that was there before, where it steps up from it
(`x/../y`, for a missing `x`). A path that never steps up leads into what was made, and there is no
file in it (`Files.existsAt_of_ensureParent`). Links may stand on the way, and those that are
followed may step up.
-/

namespace GemStaging

open Effect Disk GemStaging.Path

variable {here loc : Location} {p q : Path} {c d : Disk}

theorem Path.Leads.not_up {last : String} {dots dots' : List String}
    (h : Leads q p last dots dots') (hup : ".." ∉ hops p) : ".." ∉ hops q ∧ last ≠ ".." := by
  rw [h.hops_eq] at hup
  refine ⟨fun hq => hup (by simp [hq]), ?_⟩
  rintro rfl
  exact hup (by simp)

namespace Disk

section Through
variable {slash slash' : Bool} {onLink onLink' : OnLink} {hops suffix dots dots' : List String}
variable {last : String} {t : Target}

theorem walkHops_dots {purpose : Purpose} {rest : List String} (h : ∀ hop ∈ dots, hop = ".") :
    walkHops d purpose slash onLink here (dots ++ rest) =
      walkHops d purpose slash onLink here rest := by
  induction dots with
  | nil => rfl
  | cons dot more ih =>
    obtain ⟨hdot, hmore⟩ := List.forall_mem_cons.1 h
    rw [List.cons_append, walkHops, if_pos hdot, ih hmore]

theorem walk_dots {purpose : Purpose} {links : Nat} (h : ∀ hop ∈ dots, hop = ".") :
    walk d purpose links slash here dots = .ok (.entry here) := by
  rw [← List.append_nil dots]
  cases links <;> rw [walk, walkHops_dots h] <;> rfl

/-- Some walk goes from a directory along the hops to a target. -/
def Passes (d : Disk) (loc : Location) (hops : List String) (t : Target) : Prop :=
  ∃ slash onLink, walkHops d .look slash onLink loc hops = .ok t

theorem walkHops_onward {hop : String} {more : List String} (hdot : hop ≠ ".") (hup : hop ≠ "..")
    (hmore : more ≠ []) (h : walkHops d .look slash onLink here (hop :: more) = .ok t) :
    d.get? (here ++ [hop]) = some .directory ∧
        walkHops d .look slash onLink (here ++ [hop]) more = .ok t ∨
      ∃ target, d.get? (here ++ [hop]) = some (.link target) ∧
        onLink here target more slash = .ok t := by
  rw [walkHops_eq_ok_iff] at h
  cases h with
  | dot => exact absurd rfl hdot
  | up => exact absurd rfl hup
  | free => exact absurd rfl hmore
  | directory _ hdir hwalk => exact .inl ⟨hdir, hwalk.walkHops⟩
  | file => exact absurd rfl hmore
  | kept => exact absurd rfl hmore
  | followed _ hlink _ hon => exact .inr ⟨_, hlink, hon⟩

theorem walkHops_through (hsuffix : suffix ≠ []) (hdir : d.get? loc = some .directory)
    (hlink : ∀ here target rest, onLink' here target rest slash' = .ok (.entry loc) →
      onLink here target (rest ++ suffix) slash = .ok t → Passes d loc suffix t)
    (hq : walkHops d .look slash' onLink' here hops = .ok (.entry loc))
    (hp : walkHops d .look slash onLink here (hops ++ suffix) = .ok t) : Passes d loc suffix t := by
  generalize hentry : Target.entry loc = stop at hq
  rw [walkHops_eq_ok_iff] at hq
  have hmore (rest : List String) : rest ++ suffix ≠ [] := by simp [hsuffix]
  induction hq with
  | arrived =>
    obtain rfl := Target.entry.inj hentry
    exact ⟨slash, onLink, hp⟩
  | dot _ ih =>
    rw [List.cons_append, walkHops, if_pos rfl] at hp
    exact ih hp hentry
  | up _ ih =>
    rw [List.cons_append, walkHops, if_neg (by decide), if_pos rfl] at hp
    exact ih hp hentry
  | free => cases hentry
  | directory henters hhop _ ih =>
    rcases walkHops_onward henters.notDot henters.notUp (hmore _) hp with ⟨-, hp⟩ | ⟨_, hlink', -⟩
    · exact ih hp hentry
    · simp [hhop] at hlink'
  | file _ hfile _ =>
    obtain rfl := Target.entry.inj hentry
    simp [hdir] at hfile
  | kept _ _ hkeeps => simp [Purpose.KeepsLink] at hkeeps
  | followed henters hhop _ hon =>
    subst hentry
    rcases walkHops_onward henters.notDot henters.notUp (hmore _) hp with ⟨hdir', -⟩ | ⟨_, hl, hp⟩
    · simp [hhop] at hdir'
    · obtain rfl := Entry.link.inj (Option.some.inj (hhop.symm.trans hl))
      exact hlink _ _ _ hon hp

theorem walk_through (hsuffix : suffix ≠ []) (hdir : d.get? loc = some .directory)
    {links links' : Nat} (hq : walk d .look links' slash' here hops = .ok (.entry loc))
    (hp : walk d .look links slash here (hops ++ suffix) = .ok t) : Passes d loc suffix t := by
  induction links generalizing links' slash slash' here hops with
  | zero =>
    rw [walk] at hp
    cases links' <;> rw [walk] at hq <;> exact walkHops_through hsuffix hdir (by simp) hq hp
  | succ n ih =>
    rw [walk] at hp
    cases links' with
    | zero =>
      rw [walk] at hq
      exact walkHops_through hsuffix hdir (by simp) hq hp
    | succ n' =>
      rw [walk] at hq
      refine walkHops_through hsuffix hdir (fun here target rest hon hon' => ?_) hq hp
      rw [← List.append_assoc] at hon'
      exact ih hon hon'

/-- Behind a directory a walk along one name ends there, if no link stands there and no file. -/
theorem Passes.loc_eq (h : Passes d loc (dots ++ last :: dots') t) (hdots : ∀ hop ∈ dots, hop = ".")
    (hdots' : ∀ hop ∈ dots', hop = ".") (hdot : last ≠ ".") (hup : last ≠ "..")
    (hlast : d.get? (loc ++ [last]) = none ∨ d.get? (loc ++ [last]) = some .directory) :
    t.loc = loc ++ [last] := by
  obtain ⟨slash, onLink, hwalk⟩ := h
  rw [walkHops_dots hdots, walkHops_eq_ok_iff] at hwalk
  cases hwalk with
  | dot => exact absurd rfl hdot
  | up => exact absurd rfl hup
  | free => rfl
  | directory _ _ hrest =>
    have hend := hrest.walkHops
    rw [← List.append_nil dots', walkHops_dots hdots'] at hend
    obtain rfl := Except.ok.inj hend
    rfl
  | file _ hfile _ => simp [hfile] at hlast
  | kept _ hlink _ => simp [hlink] at hlast
  | followed _ hlink _ _ => simp [hlink] at hlast

end Through

/-- A path that never steps up leads into the directory that its parent leads to. Where that one is
new, so is what the path leads to. -/
theorem get?_of_leads {last : String} {dots dots' : List String} {parentLoc : Location}
    (hhere : d.get? here = some .directory) (hspared : ∀ x, SparedAt x c d)
    (hparent : p.parent? = some q) (hleads : Leads q p last dots dots') (hup : last ≠ "..")
    (hq : d.resolve here .look q = .ok (.entry parentLoc)) (hnew : c.get? parentLoc = none)
    (hp : d.resolve here .look p = .ok (.entry loc)) : c.get? loc = none := by
  have horigin : origin q here = origin p here := by
    rw [origin, (begins_of_parent? hparent).isAbsolute, origin]
  have hdir : d.get? parentLoc = some .directory := by
    obtain ⟨e, he, -⟩ := resolve_sound hhere hq
    rcases hspared parentLoc with hsame | ⟨-, hdir⟩
    · rw [hsame, hnew] at he
      cases he
    · exact hdir
  have hbelow : c.get? (parentLoc ++ [last]) = none := by
    rw [← Option.not_isSome_iff_eq_none]
    intro hsome
    rw [c.get?_parent hsome] at hnew
    cases hnew
  obtain ⟨-, hwalk⟩ := resolve_eq_ok_iff.1 hp
  obtain ⟨-, hwalk'⟩ := resolve_eq_ok_iff.1 hq
  rw [hleads.hops_eq, List.append_assoc] at hwalk
  rw [horigin] at hwalk'
  have hpasses := walk_through (by simp) hdir hwalk' hwalk
  have hloc : loc = parentLoc ++ [last] := by
    refine hpasses.loc_eq hleads.idle hleads.idle' hleads.notDot hup ?_
    exact (hspared (parentLoc ++ [last])).imp (·.trans hbelow) And.right
  rw [hloc, hbelow]

theorem not_isFileAt_of_dots (hhere : d.get? here = some .directory)
    (h : ∀ hop ∈ hops p, hop = ".") : ¬ d.isFileAt here p := by
  intro hfile
  obtain ⟨loc, content, mode, hl, hfile⟩ := isFileAt_iff.1 hfile
  obtain ⟨-, hwalk⟩ := resolve_eq_ok_iff.1 hl
  rw [walk_dots h] at hwalk
  obtain rfl := Target.entry.inj (Except.ok.inj hwalk)
  have hstart : d.get? (origin p here) = some .directory :=
    (directories d .look).origin p hhere
  simp [hstart] at hfile

end Disk

namespace Access

theorem makeDir_of_dots (htext : ¬ p.text.isEmpty) (h : ∀ hop ∈ hops p, hop = ".") :
    makeDir p here c ≠ (.error .notFound, c) := by
  intro hmake
  simp only [makeDir, resolve, walk_dots h] at hmake
  split at hmake
  · rename_i e hresolve
    obtain rfl : e = .notFound := by simpa using hmake
    simp only [htext] at hresolve
    split at hresolve
    · cases hresolve
    · simp only [Bool.false_eq_true, if_false] at hresolve
      split at hresolve <;> cases hresolve
  · simp at hmake
  · simp at hmake

theorem makeDir_eq_error {e : OsError} (h : makeDir p here c = (.error e, d)) : d = c := by
  simp only [makeDir] at h
  split at h
  · exact (Prod.mk.inj h).2.symm
  · exact (Prod.mk.inj h).2.symm
  · cases (Prod.mk.inj h).1

theorem eq_of_settle {e : OsError} (h : settle p e here c = (.ok (), d)) : d = c := by
  have hsame : c = d := (settle_moves p e).of_eq h
  exact hsame.symm

theorem makeOrKeepDir_eq_ok (h : makeOrKeepDir p here c = (.ok (), d)) :
    makeDir p here c = (.ok (), d) ∨ d = c ∧ c.isDirAt here p := by
  obtain ⟨e, b, hmade⟩ | ⟨⟨⟩, b, hmade⟩ := (makeDir p).error_or_ok here c
  · rw [makeOrKeepDir, bind_apply_ok (attempt_of_eq hmade)] at h
    obtain rfl := makeDir_eq_error hmade
    obtain rfl := eq_of_settle h
    exact .inr ⟨rfl, isDirAt_of_settle h⟩
  · rw [makeOrKeepDir, bind_apply_ok (attempt_of_eq hmade)] at h
    obtain ⟨-, rfl⟩ := ok_inj h
    exact .inl hmade

/-- How a directory comes to be there: it is made, or nothing is to be made, or its parent is
missing too and comes first. -/
theorem makeDirsFrom_eq_ok {fuel : Nat} (h : makeDirsFrom (fuel + 1) p here c = (.ok (), d)) :
    makeDir p here c = (.ok (), d) ∨ d = c ∨
      ∃ q b, p.parent? = some q ∧ makeDir p here c = (.error .notFound, c) ∧
        (b = c ∨ ¬ q.text.isEmpty ∧ makeDirsFrom fuel q here c = (.ok (), b)) ∧
        makeOrKeepDir p here b = (.ok (), d) := by
  obtain ⟨e, b, hmade⟩ | ⟨⟨⟩, b, hmade⟩ := (makeDir p).error_or_ok here c
  · obtain rfl := makeDir_eq_error hmade
    rw [makeDirsFrom, bind_apply_ok (attempt_of_eq hmade)] at h
    cases e with
    | notFound =>
      cases hparent : p.parent? with
      | none => simp [hparent] at h
      | some q =>
        simp only [hparent] at h
        refine .inr (.inr ⟨q, ?_⟩)
        split at h
        · rename_i hq
          obtain ⟨⟨⟩, b', hb, h⟩ := bind_eq_ok_iff.1 h
          exact ⟨b', rfl, hmade, .inr ⟨by simpa using hq, hb⟩, h⟩
        · exact ⟨b, rfl, hmade, .inl rfl, h⟩
    | _ => exact .inr (.inl (eq_of_settle h))
  · rw [makeDirsFrom, bind_apply_ok (attempt_of_eq hmade)] at h
    obtain ⟨-, rfl⟩ := ok_inj h
    exact .inl hmade

theorem makeDirsFrom_clears (fuel : Nat) (p : Path) :
    Moves (Clears p.Upward here) here (makeDirsFrom fuel p) :=
  makeDirsFrom_moves (fun _ _ hq hparent => .parent hq hparent) (fun _ hq => makeDir_clears hq) fuel
    .self

/-- Making directories for a path that never steps up changes nothing, or what the path leads to is
new. -/
theorem makeDirsFrom_leads (fuel : Nat) (hhere : c.get? here = some .directory)
    (htext : ¬ p.text.isEmpty) (hup : ".." ∉ hops p)
    (h : makeDirsFrom fuel p here c = (.ok (), d)) :
    d = c ∨ ∃ loc, d.resolve here .look p = .ok (.entry loc) ∧ c.get? loc = none := by
  induction fuel generalizing p d with
  | zero => cases (Prod.mk.inj h).1
  | succ fuel ih =>
    rcases makeDirsFrom_eq_ok h with hmade | hsame | ⟨q, b, hparent, hmissing, hb, hkeep⟩
    · obtain ⟨loc, hl, -, hnone⟩ := makeDir_arrives hhere hmade
      exact .inr ⟨loc, hl, hnone⟩
    · exact .inl hsame
    have hdots : ¬ ∀ hop ∈ hops p, hop = "." := fun hdots => makeDir_of_dots htext hdots hmissing
    obtain ⟨last, dots, dots', hleads⟩ := (hops_of_parent? hparent).resolve_left hdots
    obtain ⟨hupq, hlast⟩ := hleads.not_up hup
    have hclears : ∃ way, Clears way here c b := by
      rcases hb with rfl | ⟨-, hmade⟩
      · exact ⟨fun _ => True, refl_of _ b⟩
      · exact ⟨_, (makeDirsFrom_clears fuel q).of_eq hmade⟩
    obtain ⟨way, hclears⟩ := hclears
    have hhere' : b.get? here = some .directory := hclears.toExtends _ _ hhere
    rcases makeOrKeepDir_eq_ok hkeep with hmade | ⟨rfl, hdir⟩
    · obtain ⟨loc, hl, -, hnone⟩ := makeDir_arrives hhere' hmade
      refine .inr ⟨loc, hl, ?_⟩
      rw [Option.eq_none_iff_forall_ne_some] at hnone ⊢
      exact fun e he => hnone e (hclears.toExtends _ e he)
    · obtain ⟨loc, hl, -⟩ := isDirAt_iff.1 hdir
      have hparent' : d = c ∨ ∃ loc, d.resolve here .look q = .ok (.entry loc) ∧
          c.get? loc = none := hb.elim .inl fun hmade => ih hmade.1 hupq hmade.2
      refine hparent'.imp_right fun ⟨parentLoc, hq, hnew⟩ => ⟨loc, hl, ?_⟩
      exact get?_of_leads hhere' hclears.sparedAt hparent hleads hlast hq hnew hl

end Access

/-- Making the directory of a path that never steps up brings no file to light: what the path leads
to afterwards it led to before. -/
theorem Files.existsAt_of_ensureParent (hhere : c.get? here = some .directory)
    (hup : ".." ∉ hops p) (h : ensureParent p here c = (.ok (), d)) (hfile : d.isFileAt here p) :
    c.existsAt here p := by
  have hclears := (ensureParent_clears p).of_eq h
  obtain ⟨loc, content, mode, hl, hentry⟩ := isFileAt_iff.1 hfile
  suffices hsame : d = c from hsame ▸ existsAt_iff.2 ⟨loc, hl, by rw [hentry]; rfl⟩
  have hhere' : d.get? here = some .directory := hclears.toExtends _ _ hhere
  cases hparent : p.parent? with
  | none =>
    simp only [ensureParent, hparent] at h
    exact (ok_inj h).2.symm
  | some q =>
    simp only [ensureParent, hparent] at h
    obtain ⟨last, dots, dots', hleads⟩ := (hops_of_parent? hparent).resolve_left fun hdots =>
      not_isFileAt_of_dots hhere' hdots hfile
    obtain ⟨hupq, hlast⟩ := hleads.not_up hup
    have hmade : Access.makeDirs q here c = (.ok (), d) := mapError_eq_ok_iff.1 h
    rw [Access.makeDirs] at hmade
    split at hmade
    · exact (ok_inj hmade).2.symm
    · rename_i htext
      refine (Access.makeDirsFrom_leads _ hhere htext hupq hmade).resolve_right ?_
      rintro ⟨parentLoc, hq, hnew⟩
      have hnone := get?_of_leads hhere' hclears.sparedAt hparent hleads hlast hq hnew hl
      rcases hclears.sparedAt loc with hsame | ⟨-, hdir⟩
      · simp [hsame, hnone] at hentry
      · simp [hdir] at hentry

end GemStaging
