import GemStaging.Proofs.Files.Aliasing
import GemStaging.Proofs.Files.Repeating

/-!
Operations on any disk, with links in it. Making directories changes nothing that is there, and what
it makes stands where its path, or one above it, leads to (`Disk.Clears`). So it is with a
copy of a file that fails, unless what it copies ends short (`Files.copyFile_clears_of_error`).
-/

namespace GemStaging

open Effect Disk

variable {here : Location} {way way' : Path → Prop} {p q source target : Path} {b c d : Disk}

/-- A path, its parent, the parent of that, and so on. -/
inductive Path.Upward (p : Path) : Path → Prop where
  | self : Upward p p
  | parent {q parent : Path} : Upward p q → q.parent? = some parent → Upward p parent

theorem Path.Upward.of_parent {parent : Path} (h : p.parent? = some parent)
    (hq : Upward parent q) : Upward p q := by
  induction hq with
  | self => exact .parent .self h
  | parent _ hup ih => exact .parent ih hup

namespace Disk

/-- The place is as it was, or a directory was made there where nothing stood and a path of the way
leads to it. -/
def ClearedAt (way : Path → Prop) (here loc : Location) (c d : Disk) : Prop :=
  d.get? loc = c.get? loc ∨ c.get? loc = none ∧ d.get? loc = some .directory ∧
    (c.get? here = some .directory → ∃ q, way q ∧ d.resolve here .look q = .ok (.entry loc))

/-- Directories were made on the way of some paths, and nothing else has changed. -/
def Clears (way : Path → Prop) (here : Location) (c d : Disk) : Prop :=
  ∀ loc, ClearedAt way here loc c d

theorem ClearedAt.of_grows {loc : Location} (h : ClearedAt way here loc b c) (hg : c.Grows d)
    (hsame : d.get? loc = c.get? loc) : ClearedAt way here loc b d := by
  rcases h with hkept | ⟨hnone, hdir, hleads⟩
  · exact .inl (hsame.trans hkept)
  · refine .inr ⟨hnone, hsame.trans hdir, fun hhere => ?_⟩
    obtain ⟨q, hq, hl⟩ := hleads hhere
    exact ⟨q, hq, hg.arrives (.inl rfl) rfl hl (.inl (hg.directory hdir))⟩

namespace Clears

theorem sparedAt (h : Clears way here c d) (loc : Location) : SparedAt loc c d := by
  rcases h loc with hsame | ⟨hnone, hdir, -⟩
  · exact .inl hsame
  · exact .inr ⟨hnone, hdir⟩

theorem toExtends (h : Clears way here c d) : c.Extends d := by
  intro loc e he
  rw [(h.sparedAt loc).eq_of_isSome (by rw [he]; rfl), he]

theorem mono (hway : ∀ q, way q → way' q) (h : Clears way here c d) : Clears way' here c d := by
  intro loc
  rcases h loc with hsame | ⟨hnone, hdir, hleads⟩
  · exact .inl hsame
  · refine .inr ⟨hnone, hdir, fun hhere => ?_⟩
    obtain ⟨q, hq, hl⟩ := hleads hhere
    exact ⟨q, hway q hq, hl⟩

instance : IsPreorder Disk (Clears way here) where
  refl _ _ := .inl rfl
  trans b c d h h' := by
    intro loc
    rcases h loc with hsame | ⟨-, hdir, -⟩
    · rcases h' loc with hsame' | ⟨hnone', hdir', hleads'⟩
      · exact .inl (hsame'.trans hsame)
      · exact .inr ⟨hsame ▸ hnone', hdir', fun hhere => hleads' (h.toExtends _ _ hhere)⟩
    · have hsame := h'.toExtends loc _ hdir
      exact (h loc).of_grows h'.toExtends.grows (hsame.trans hdir.symm)

end Clears

theorem Clears.at?_file {content : Bytes} {mode : Mode} (h : Clears way here c d)
    (hp : c.at? here p = some (.file content mode)) : d.at? here p = some (.file content mode) := by
  obtain ⟨loc, hl, hfile⟩ := exists_locate_of_at? hp
  exact at?_of_locate (h.toExtends.grows.locate_file hfile hl) (h.toExtends loc _ hfile)

end Disk

namespace Access

theorem makeDir_clears (hp : way p) : Moves (Clears way here) here (makeDir p) := by
  refine makeDir_moves fun d dir name hfree loc => ?_
  by_cases hloc : loc = dir ++ [name]
  · subst hloc
    by_cases hadmits : d.admits dir name .directory
    · have hput : (d.put dir name .directory).get? (dir ++ [name]) = some .directory := by
        rw [get?_put hadmits, if_pos rfl]
      have hg := (Extends.put_new (get?_of_free hfree) .directory).grows
      exact .inr ⟨get?_of_free hfree, hput, fun _ =>
        ⟨p, hp, hg.arrives (.inl rfl) rfl hfree (.inl hput)⟩⟩
    · exact .inl (by simp [put, hadmits])
  · exact .inl (get?_put_of_ne hloc)

theorem makeDirs_clears (p : Path) : Moves (Clears p.Upward here) here (makeDirs p) :=
  makeDirs_moves (fun _ _ hq hparent => .parent hq hparent) (fun _ hq => makeDir_clears hq) .self

end Access

namespace Files

theorem ensureDir_clears (p : Path) : Moves (Clears p.Upward here) here (ensureDir p) :=
  (Access.makeDirs_clears p).mapError _

theorem ensureParent_clears (p : Path) : Moves (Clears p.Upward here) here (ensureParent p) := by
  rw [ensureParent]
  split
  · rename_i parent hparent
    intro d
    exact (ensureDir_clears parent d).mono fun q hq => .of_parent hparent hq
  · exact .pure ()

theorem copyFile_clears_of_error {f : Fault} (hhere : c.get? here = some .directory)
    (h : copyFile source target here c = (.error f, d)) :
    Clears target.Upward here c d ∨
      ∃ c' e loc content mode place, ensureParent target here c = (.ok (), c') ∧
        f = unwritable target e ∧ c'.locate here source = .ok loc ∧
        c'.get? loc = some (.file content mode) ∧ Access.EndsShort content mode e ∧ loc ≠ place ∧
        Access.Lands here target (.file (content.take Access.maxFile) mode.mended) c' d place := by
  obtain h | ⟨⟨⟩, c', hparent, h⟩ := bind_eq_error_iff.1 h
  · exact .inl ((ensureParent_clears target).of_eq h)
  · obtain ⟨e, hcopy, rfl⟩ := mapError_eq_error_iff.1 h
    have hmade := (ensureParent_clears target).of_eq hparent
    obtain rfl | ⟨loc, content, mode, place, hcut⟩ :=
      Access.copyFile_lands_of_error (hmade.toExtends _ _ hhere) hcopy
    · exact .inl hmade
    · exact .inr ⟨c', e, loc, content, mode, place, hparent, rfl, hcut⟩

end Files

end GemStaging
