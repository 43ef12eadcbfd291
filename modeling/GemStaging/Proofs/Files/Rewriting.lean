import GemStaging.Proofs.Files.Growth

/-!
Writing the same texts again. A text that was written once is written again by filling the file at
one place (`writeText_again`), and filling files in the same order with what they hold at the end
changes nothing (`refillAll_eq_self`).
-/

namespace GemStaging

open Effect

def Entry.refill (content : Bytes) : Entry → Entry
  | file _ mode => file content mode.mended
  | e => e

namespace Disk

/-- The disk with other content in the file at a location, where there is one. -/
def refill (d : Disk) (loc : Location) (content : Bytes) : Disk :=
  match d.get? loc, loc.getLast? with
  | some (.file _ mode), some name => d.put loc.dropLast name (.file content mode.mended)
  | _, _ => d

theorem get?_refill (d : Disk) (loc : Location) (content : Bytes) (k : Location) :
    (d.refill loc content).get? k =
      if k = loc then (d.get? loc).map (Entry.refill content) else d.get? k := by
  rw [refill]
  split
  · rename_i old mode name hfile hname
    have hloc := Access.dropLast_append_of_getLast? hname
    have hadmits : d.admits loc.dropLast name (.file content mode.mended) := by
      refine ⟨?_, ?_⟩
      · refine d.get?_parent (?_ : (d.get? (loc.dropLast ++ [name])).isSome)
        rw [hloc, hfile]
        rfl
      · rw [hloc, hfile]
        simp
    rw [get?_put hadmits, hloc, hfile]
    rfl
  · rename_i hno
    split
    · rename_i hk
      subst hk
      cases he : d.get? k with
      | none => rfl
      | some e =>
        cases e with
        | file old mode =>
          cases hlast : k.getLast? with
          | none =>
            rw [List.getLast?_eq_none_iff.1 hlast, get?_root] at he
            simp at he
          | some name => exact absurd hlast (hno old mode name he)
        | _ => rfl
    · rfl

theorem grows_refill (d : Disk) (loc : Location) (content : Bytes) :
    d.Grows (d.refill loc content) := by
  intro k e he
  rw [get?_refill]
  split
  · rename_i hk
    subst hk
    refine ⟨e.refill content, by rw [he]; rfl, ?_⟩
    cases e with
    | file => exact .rewritten
    | directory => exact .same _
    | link => exact .same _
  · exact ⟨e, he, .same e⟩

/-- What can be written again on one disk can be so on another: no entry goes, and no file with a
steady mode loses it. -/
structure Renews (c d : Disk) : Prop where
  grows : c.Grows d
  steady : ∀ loc content mode, c.get? loc = some (.file content mode) → mode.Steady →
    ∃ content' mode', d.get? loc = some (.file content' mode') ∧ mode'.Steady

namespace Renews
variable {b c d : Disk}

theorem refl (d : Disk) : d.Renews d where
  grows := .refl d
  steady _ content mode h hmode := ⟨content, mode, h, hmode⟩

instance : IsPreorder Disk Renews where
  refl := refl
  trans _ _ _ h h' :=
    { grows := h.grows.trans h'.grows
      steady := fun loc _ _ hfile hmode =>
        have ⟨_, _, hfile', hmode'⟩ := h.steady loc _ _ hfile hmode
        h'.steady loc _ _ hfile' hmode' }

theorem of_extends (h : c.Extends d) : c.Renews d where
  grows := h.grows
  steady loc content mode hfile hmode := ⟨content, mode, h loc _ hfile, hmode⟩

theorem put_file {dir : Location} {name : String} {mode : Mode}
    (h : d.TakesFile (dir ++ [name])) (content : Bytes) (hmode : mode.Steady) :
    d.Renews (d.put dir name (.file content mode)) where
  grows := .put_file h content mode
  steady loc old mode' hfile hmode' := by
    by_cases hput : d.admits dir name (.file content mode) ∧ loc = dir ++ [name]
    · obtain ⟨hadmits, rfl⟩ := hput
      exact ⟨content, mode, by rw [get?_put hadmits, if_pos rfl], hmode⟩
    · refine ⟨old, mode', ?_, hmode'⟩
      by_cases hadmits : d.admits dir name (.file content mode)
      · rwa [get?_put_of_ne fun hloc => hput ⟨hadmits, hloc⟩]
      · simpa [put, hadmits] using hfile

theorem refill (d : Disk) (loc : Location) (content : Bytes) : d.Renews (d.refill loc content) where
  grows := grows_refill d loc content
  steady k old mode hfile hmode := by
    rw [get?_refill]
    split
    · rename_i hk
      rw [← hk, hfile]
      exact ⟨content, mode.mended, rfl, Mode.steady_mended hmode.writable⟩
    · exact ⟨old, mode, hfile, hmode⟩

end Renews

def refillAll (d : Disk) (fills : List (Location × Bytes)) : Disk :=
  fills.foldl (fun d w => d.refill w.1 w.2) d

def lastFill (loc : Location) : List (Location × Bytes) → Option Bytes
  | [] => none
  | (l, content) :: rest => (lastFill loc rest).or (if loc = l then some content else none)

theorem get?_refillAll (d : Disk) (fills : List (Location × Bytes)) (k : Location) :
    (d.refillAll fills).get? k =
      match lastFill k fills with
      | none => d.get? k
      | some content => (d.get? k).map (Entry.refill content) := by
  induction fills generalizing d with
  | nil => rfl
  | cons w rest ih =>
    obtain ⟨loc, content⟩ := w
    have hstep : d.refillAll ((loc, content) :: rest) = (d.refill loc content).refillAll rest := rfl
    rw [hstep, ih, get?_refill, lastFill]
    cases lastFill k rest with
    | none =>
      by_cases hk : k = loc
      · simp [hk]
      · simp [hk]
    | some last =>
      by_cases hk : k = loc
      · subst hk
        cases d.get? k with
        | none => simp
        | some e => cases e <;> simp [Entry.refill]
      · simp [hk]

theorem refillAll_eq_self {d : Disk} {fills : List (Location × Bytes)}
    (h : ∀ loc content, lastFill loc fills = some content →
      ∃ mode : Mode, mode.Steady ∧ d.get? loc = some (.file content mode)) :
    d.refillAll fills = d := by
  refine ext_get? fun k => ?_
  rw [get?_refillAll]
  split
  · rfl
  · rename_i content hlast
    obtain ⟨mode, hmode, hfile⟩ := h k content hlast
    rw [hfile, Option.map_some, Entry.refill, Mode.mended_of_sound hmode.sound]

/-- Files were filled from one disk to another: each holds what was put there last, and whatever
else was there is as it was. -/
structure Refilled (fills : List (Location × Bytes)) (c d : Disk) : Prop where
  filled : ∀ loc content, lastFill loc fills = some content →
    ∃ mode : Mode, mode.Steady ∧ d.get? loc = some (.file content mode)
  kept : ∀ loc e, lastFill loc fills = none → c.get? loc = some e → d.get? loc = some e

namespace Refilled
variable {b c d : Disk} {fills : List (Location × Bytes)} {loc : Location} {content : Bytes}

theorem nil (c : Disk) : Refilled [] c c := ⟨by simp [lastFill], fun _ _ _ h => h⟩

theorem single {mode : Mode} (hmode : mode.Steady) (hfile : d.get? loc = some (.file content mode))
    (hothers : ∀ k e, k ≠ loc → c.get? k = some e → d.get? k = some e) :
    Refilled [(loc, content)] c d where
  filled k last h := by
    obtain ⟨rfl, rfl⟩ : k = loc ∧ content = last := by simpa [lastFill] using h
    exact ⟨mode, hmode, hfile⟩
  kept k e h he := hothers k e (by simpa [lastFill] using h) he

theorem cons (h : Refilled [(loc, content)] b c) (h' : Refilled fills c d) :
    Refilled ((loc, content) :: fills) b d where
  filled k last hk := by
    rw [lastFill] at hk
    cases hl : lastFill k fills with
    | some other =>
      obtain rfl : other = last := by simpa [hl] using hk
      exact h'.filled k other hl
    | none =>
      obtain ⟨rfl, rfl⟩ : k = loc ∧ content = last := by simpa [hl] using hk
      obtain ⟨mode, hmode, hfile⟩ := h.filled k content (by simp [lastFill])
      exact ⟨mode, hmode, h'.kept k _ hl hfile⟩
  kept k e hk he := by
    obtain ⟨hl, hne⟩ : lastFill k fills = none ∧ ¬ k = loc := by simpa [lastFill] using hk
    exact h'.kept k e hl (h.kept k e (by simp [lastFill, hne]) he)

end Refilled

end Disk

namespace Files
open Disk

variable {here : Location}

theorem ensureDir_again {p : Path} {c d e : Disk} (hhere : c.get? here = some .directory)
    (h : ensureDir p here c = (.ok (), d)) (hg : d.Grows e) :
    ensureDir p here e = (.ok (), e) := by
  rw [ensureDir, mapError_eq_ok_iff] at h ⊢
  by_cases hp : p.text.isEmpty
  · rw [Access.makeDirs, if_pos hp]
    rfl
  · exact Access.makeDirs_of_isDirAt (hg.isDirAt (Access.isDirAt_of_makeDirs hhere hp h))

theorem ensureParent_again {p : Path} {c d e : Disk} (hhere : c.get? here = some .directory)
    (h : ensureParent p here c = (.ok (), d)) (hg : d.Grows e) :
    ensureParent p here e = (.ok (), e) := by
  rw [ensureParent] at h ⊢
  cases hparent : p.parent? with
  | none => rfl
  | some parent =>
    simp only [hparent] at h ⊢
    exact ensureDir_again hhere h hg

theorem openFile_again (given : Mode) {p : Path} {mode : Mode} {dir : Location} {name : String}
    {content : Bytes} {d : Disk} (hwritable : mode.writable)
    (hl : d.resolve here .makeFile p = .ok (.entry (dir ++ [name])))
    (hfile : d.get? (dir ++ [name]) = some (.file content mode)) :
    Access.openFile p given here d =
      (.ok (dir, name, mode.mended), d.put dir name (.file [] mode.mended)) := by
  have hname : (dir ++ [name]).getLast? = some name := by simp
  simp [Access.openFile, hl, hfile, hname, hwritable]

theorem put_put_eq_refill {d : Disk} {dir : Location} {name : String} {old content : Bytes}
    {mode : Mode} (hfile : d.get? (dir ++ [name]) = some (.file old mode)) :
    (d.put dir name (.file [] mode.mended)).put dir name (.file content mode.mended) =
      d.refill (dir ++ [name]) content := by
  have hdir : d.get? dir = some .directory := d.get?_parent (by rw [hfile]; rfl)
  have hempty : (d.put dir name (.file [] mode.mended)).get? (dir ++ [name]) =
      some (.file [] mode.mended) := by
    rw [get?_put ⟨hdir, by rw [hfile]; simp⟩, if_pos rfl]
  have hadmits : (d.put dir name (.file [] mode.mended)).admits dir name
      (.file content mode.mended) :=
    ⟨(d.put dir name _).get?_parent (by rw [hempty]; rfl), by rw [hempty]; simp⟩
  refine ext_get? fun k => ?_
  rw [get?_refill]
  by_cases hk : k = dir ++ [name]
  · rw [get?_put hadmits, if_pos hk, if_pos hk, hfile]
    rfl
  · rw [get?_put_of_ne hk, get?_put_of_ne hk, if_neg hk]

theorem writeText_renews (p : Path) (text : String) : Moves Renews here (writeText p text) := by
  refine .bind (fun d => .of_extends (ensureParent_extends p d)) fun _ => .mapError ?_ _
  refine Access.writeFile_moves fun c dir name mode d hopen => ?_
  obtain ⟨hc, hd⟩ := Access.openFile_takesFile hopen
  have hmode := Access.steady_of_openFile Mode.steady_data hopen
  obtain ⟨-, rfl, -⟩ := Access.openFile_eq_ok hopen
  exact trans_of Renews (.put_file hc [] hmode) (.put_file hd _ hmode)

/-- Writing a text fills the file at some place, and writing it again on any disk that it was
renewed to fills it there. -/
theorem writeText_again {p : Path} {text : String} {c d : Disk}
    (hhere : c.get? here = some .directory) (h : writeText p text here c = (.ok (), d)) :
    ∃ loc mode, mode.Steady ∧ d.get? loc = some (.file (Text.encode text) mode) ∧
      (∀ k e, k ≠ loc → c.get? k = some e → d.get? k = some e) ∧
      ∀ e, d.Renews e → writeText p text here e = (.ok (), e.refill loc (Text.encode text)) := by
  obtain ⟨⟨⟩, c', hparent, h⟩ := bind_eq_ok_iff.1 h
  rw [mapError_eq_ok_iff] at h
  obtain ⟨hfits, dir, name, mode, c'', hopen, rfl⟩ := Access.writeFile_eq_ok h
  have hmode := Access.steady_of_openFile Mode.steady_data hopen
  have hextends : c.Extends c' := (ensureParent_extends p).of_eq hparent
  obtain ⟨hfile, hdir, harrives⟩ := Access.openFile_arrives (hextends here _ hhere) hopen
  have hadmits : c''.admits dir name (.file (Text.encode text) mode) :=
    ⟨hdir, by rw [hfile]; simp⟩
  have hopened : c'.Grows c'' := (Access.openFile_grows p .data).of_eq hopen
  have hfilled := Grows.put_file (Access.openFile_takesFile hopen).2 (Text.encode text) mode
  obtain ⟨-, hput, -⟩ := Access.openFile_eq_ok hopen
  have hheld : (c''.put dir name (.file (Text.encode text) mode)).get? (dir ++ [name]) =
      some (.file (Text.encode text) mode) := by rw [get?_put hadmits, if_pos rfl]
  refine ⟨dir ++ [name], mode, hmode, hheld, ?_, ?_⟩
  · intro k e hk he
    rw [get?_put_of_ne hk, hput, get?_put_of_ne hk]
    exact hextends k e he
  · intro e hrenews
    have hg := hfilled.trans hrenews.grows
    obtain ⟨old, mode', hold, hmode'⟩ := hrenews.steady _ _ _ hheld hmode
    have hopen' := openFile_again .data hmode'.writable (harrives e hg .makeFile (.inr rfl)) hold
    rw [writeText, bind_apply_ok (ensureParent_again hhere hparent (hopened.trans hg)),
      mapError_eq_ok_iff, Access.writeFile, bind_apply_ok hopen']
    exact Access.fill_eq_ok_iff.2 ⟨hfits, (put_put_eq_refill hold).symm⟩

end Files

end GemStaging
