import GemStaging.Proofs.Files.Making

/-!
Refusals for length. On a disk without links no operation is refused because a path or a name is
too long as long as the paths that it is given fit (`Disk.Fits`).
-/

namespace GemStaging

open Effect Disk GemStaging.Path

variable {here : Location} {p q source target : Path} {e : OsError} {c d : Disk}

namespace Disk

theorem walkHops_ne_tooLong {purpose : Purpose} {slash : Bool} {loc : Location}
    {hops : List String} (h : ∀ hop ∈ hops, nameFits hop) :
    walkHops d purpose slash noLinks loc hops ≠ .error .nameTooLong := by
  induction hops generalizing loc with
  | nil => simp [walkHops]
  | cons hop rest ih =>
    obtain ⟨hhop, hrest⟩ := List.forall_mem_cons.1 h
    rw [walkHops]
    split
    · exact ih hrest
    split
    · exact ih hrest
    split
    · simp
    rw [if_neg (by simp [hhop])]
    split
    · split <;> simp
    · exact ih hrest
    · split <;> simp
    · simp only
      split <;> simp

theorem Plain.resolve_ne_tooLong (hd : d.Plain) (hp : Fits p) (purpose : Purpose) :
    d.resolve here purpose p ≠ .error .nameTooLong := by
  by_cases htext : p.text.isEmpty
  · have hnul : '\x00' ∉ p.text.toList := hp.nulless
    simp [resolve, htext, hnul]
  · rw [hd.resolve_eq_walkHops hp htext]
    exact walkHops_ne_tooLong hp.names

theorem Plain.locate_ne_tooLong (hd : d.Plain) (hp : Fits p) :
    d.locate here p ≠ .error .nameTooLong := by
  have hresolve : d.resolve here .look p ≠ .error .nameTooLong := hd.resolve_ne_tooLong hp .look
  rw [locate]
  split
  · simp
  · simp
  · rename_i e he
    rw [he] at hresolve
    simpa using hresolve

theorem Plain.locateLink_ne_tooLong (hd : d.Plain) (hp : Fits p) :
    d.locateLink here p ≠ .error .nameTooLong := by
  have hresolve : d.resolve here .lookAtLink p ≠ .error .nameTooLong :=
    hd.resolve_ne_tooLong hp .lookAtLink
  rw [locateLink]
  split
  · simp
  · simp
  · rename_i e he
    rw [he] at hresolve
    simpa using hresolve

end Disk

namespace Access

theorem eq_of_settle_error {e' : OsError} (h : settle p e here c = (.error e', d)) : e' = e := by
  simp only [settle, bind_eq_error_iff] at h
  rcases h with h | ⟨there, c', -, h⟩
  · simp [isDir] at h
  · split at h
    · simp at h
    · exact (Except.error.inj (Prod.mk.inj h).1).symm

section Fitting
variable (hc : c.Plain) (hp : Fits p)
include hc hp

theorem makeDir_ne_tooLong (h : makeDir p here c = (.error e, d)) : e ≠ .nameTooLong := by
  rintro rfl
  simp only [makeDir] at h
  split at h
  · rename_i e he
    obtain rfl := Except.error.inj (Prod.mk.inj h).1
    exact hc.resolve_ne_tooLong hp _ he
  · simp at h
  · simp at h

theorem makeOrKeepDir_ne_tooLong (h : makeOrKeepDir p here c = (.error e, d)) :
    e ≠ .nameTooLong := by
  rcases bind_eq_error_iff.1 h with h | ⟨x, c', hmake, h⟩
  · cases h
  · rw [attempt_apply] at hmake
    obtain ⟨hx, -⟩ := Prod.mk.inj hmake
    cases x with
    | ok => simp at h
    | error e' =>
      obtain rfl := eq_of_settle_error h
      exact makeDir_ne_tooLong hc hp (Prod.ext (Except.ok.inj hx) rfl)

theorem makeDirsFrom_ne_tooLong {fuel : Nat} (h : makeDirsFrom fuel p here c = (.error e, d)) :
    e ≠ .nameTooLong := by
  induction fuel generalizing p c d with
  | zero =>
    obtain rfl := Except.error.inj (Prod.mk.inj h).1
    simp
  | succ fuel ih =>
    rcases bind_eq_error_iff.1 h with h | ⟨x, c', hmake, h⟩
    · cases h
    rw [attempt_apply] at hmake
    obtain ⟨hx, rfl⟩ := Prod.mk.inj hmake
    cases x with
    | ok => simp at h
    | error e' =>
      have hrefused := makeDir_ne_tooLong hc hp (Prod.ext (Except.ok.inj hx) rfl)
      have hplain : (makeDir p here c).2.Plain := (makeDir_confined (fun _ hx => hx) c hc).1
      cases e' with
      | notFound =>
        cases hparent : p.parent? with
        | none =>
          simp only [hparent] at h
          obtain rfl := Except.error.inj (Prod.mk.inj h).1
          simp
        | some q =>
          have hq := hp.of_begins (begins_of_parent? hparent)
          simp only [hparent] at h
          split at h
          · rcases bind_eq_error_iff.1 h with h | ⟨⟨⟩, c₁, hmade, h⟩
            · exact ih hplain hq h
            · exact makeOrKeepDir_ne_tooLong
                (((makeDirsFrom_makes fuel q).of_eq hmade) hplain).1 hp h
          · exact makeOrKeepDir_ne_tooLong hplain hp h
      | _ => exact eq_of_settle_error h ▸ hrefused

theorem makeDirs_ne_tooLong (h : makeDirs p here c = (.error e, d)) : e ≠ .nameTooLong := by
  rw [makeDirs] at h
  split at h
  · cases h
  · exact makeDirsFrom_ne_tooLong hc hp h

theorem openFile_ne_tooLong {given : Mode}
    (h : openFile p given here c = (.error e, d)) : e ≠ .nameTooLong := by
  rintro rfl
  simp only [openFile] at h
  split at h
  · rename_i e he
    obtain rfl := Except.error.inj (Prod.mk.inj h).1
    exact hc.resolve_ne_tooLong hp _ he
  · simp at h
  · split at h
    · split at h <;> simp at h
    · simp at h

theorem list_ne_tooLong (h : list p here c = (.error e, d)) : e ≠ .nameTooLong := by
  rcases bind_eq_error_iff.1 h with h | ⟨loc, c', -, h⟩
  · rintro rfl
    exact hc.locate_ne_tooLong hp (Prod.mk.inj h).1
  · rcases bind_eq_error_iff.1 h with h | ⟨disk, c'', -, h⟩
    · cases h
    · split at h
      · cases h
      · obtain rfl := Except.error.inj (Prod.mk.inj h).1
        simp

end Fitting

theorem copyFile_ne_tooLong (hc : c.Plain) (hsource : Fits source) (htarget : Fits target)
    (h : copyFile source target here c = (.error e, d)) : e ≠ .nameTooLong := by
  obtain ⟨-, hlocate | rfl | ⟨given, hopen⟩⟩ | ⟨_, _, _, _, _, _, _, -, -, hshort, -⟩ :=
    copyFile_eq_error h
  · rintro rfl
    exact hc.locate_ne_tooLong hsource hlocate
  · simp
  · exact openFile_ne_tooLong hc htarget hopen
  · rintro rfl
    cases hshort

end Access

namespace Files

def TooLong (f : Fault) : Prop :=
  ∃ p, f = walkFault p .nameTooLong ∨ f = unwritable p .nameTooLong

theorem message_inj {e e' : OsError} (h : e.message = e'.message) : e = e' := by
  cases e <;> cases e' <;> first | rfl | simp [OsError.message] at h

theorem not_tooLong_unwritable (h : e ≠ .nameTooLong) : ¬ TooLong (unwritable p e) := by
  rintro ⟨q, hq | hq⟩
  · cases hq
  · exact h (message_inj (Fault.fileUnwritable.inj hq).2)

theorem not_tooLong_walkFault (h : e ≠ .nameTooLong) : ¬ TooLong (walkFault p e) := by
  rintro ⟨q, hq | hq⟩
  · obtain ⟨htext, hreason⟩ := Fault.fileUnreadable.inj hq
    rw [htext] at hreason
    have hmessage := congrArg String.toList hreason
    simp only [String.toList_append, List.append_cancel_left_eq] at hmessage
    exact h (message_inj (String.toList_inj.1 hmessage))
  · cases hq

theorem ensureDir_not_tooLong {f : Fault} (hc : c.Plain) (hp : Fits p)
    (h : ensureDir p here c = (.error f, d)) : ¬ TooLong f := by
  obtain ⟨e, hmake, rfl⟩ := mapError_eq_error_iff.1 h
  exact not_tooLong_unwritable (Access.makeDirs_ne_tooLong hc hp hmake)

theorem copyFile_not_tooLong {f : Fault} (hc : c.Plain) (hsource : Fits source)
    (htarget : Fits target) (h : copyFile source target here c = (.error f, d)) :
    ¬ TooLong f := by
  rcases bind_eq_error_iff.1 h with h | ⟨⟨⟩, c', hparent, h⟩
  · rw [ensureParent] at h
    cases hq : target.parent? with
    | none => simp [hq] at h
    | some q =>
      simp only [hq] at h
      exact ensureDir_not_tooLong hc (htarget.of_begins (begins_of_parent? hq)) h
  · obtain ⟨e, hcopy, rfl⟩ := mapError_eq_error_iff.1 h
    have hc' := ((ensureParent_makes target).of_eq hparent hc).1
    exact not_tooLong_unwritable (Access.copyFile_ne_tooLong hc' hsource htarget hcopy)

end Files

end GemStaging
