import GemStaging.Proofs.Files.Sparing

/-!
What an operation may touch. A footprint names the places where missing directories may be made,
those where a file may be put, and those where anything may change (`Disk.Footprint`). Making
directories and copying keep to the footprints of their targets.
-/

namespace GemStaging

open Effect Disk GemStaging.Path

variable {here : Location}

namespace Disk

/-- At the place nothing has changed, or a directory was made where nothing stood, and the place is
on a way. -/
def MadeAt (ways : Location → Prop) (loc : Location) (c d : Disk) : Prop :=
  d.get? loc = c.get? loc ∨ ways loc ∧ c.get? loc = none ∧ d.get? loc = some .directory

namespace MadeAt
variable {ways : Location → Prop} {loc : Location} {b c d : Disk}

theorem refl (d : Disk) : MadeAt ways loc d d := .inl rfl

theorem trans (h : MadeAt ways loc b c) (h' : MadeAt ways loc c d) : MadeAt ways loc b d := by
  rcases h' with h' | ⟨hway, hnone, hdir⟩
  · rwa [MadeAt, h']
  · rcases h with h | ⟨-, -, hdir'⟩
    · exact .inr ⟨hway, h ▸ hnone, hdir⟩
    · rw [hnone] at hdir'
      cases hdir'

theorem mono {more : Location → Prop} (h : MadeAt ways loc c d) (hmore : ways loc → more loc) :
    MadeAt more loc c d :=
  h.imp_right (.imp_left hmore)

theorem sparedAt (h : MadeAt ways loc c d) : SparedAt loc c d := h.imp_right And.right

end MadeAt

/-- The places where missing directories may be made, where a file may be put, and where anything
may change. -/
structure Footprint where
  makes : Location → Prop
  puts : Location → Prop
  owns : Location → Prop

namespace Footprint
variable {a b : Footprint} {c d : Disk}

/-- A plain disk stays plain, and nothing changes beyond a footprint. -/
def Allows (a : Footprint) (c d : Disk) : Prop :=
  c.Plain → d.Plain ∧ ∀ loc, d.get? loc = c.get? loc ∨ a.owns loc ∨
    (a.puts loc ∧ ∃ content mode, d.get? loc = some (.file content mode)) ∨
    (a.makes loc ∧ c.get? loc = none ∧ d.get? loc = some .directory)

instance : IsPreorder Disk a.Allows where
  refl _ h := ⟨h, fun _ => .inl rfl⟩
  trans _ _ _ h h' hplain := by
    obtain ⟨hplain, hbefore⟩ := h hplain
    obtain ⟨hplain, hafter⟩ := h' hplain
    refine ⟨hplain, fun loc => ?_⟩
    rcases hafter loc with hsame | howns | hputs | ⟨hmakes, hnone, hdir⟩
    · rw [hsame]
      exact hbefore loc
    · exact .inr (.inl howns)
    · exact .inr (.inr (.inl hputs))
    · rcases hbefore loc with hsame | howns | ⟨-, content, mode, hfile⟩ | ⟨-, -, hdir'⟩
      · exact .inr (.inr (.inr ⟨hmakes, hsame ▸ hnone, hdir⟩))
      · exact .inr (.inl howns)
      · simp [hfile] at hnone
      · simp [hdir'] at hnone

/-- One footprint is a part of another one, which may own what the first only makes or puts. -/
structure Within (a b : Footprint) : Prop where
  makes : ∀ loc, a.makes loc → b.makes loc ∨ b.owns loc
  puts : ∀ loc, a.puts loc → b.puts loc ∨ b.owns loc
  owns : ∀ loc, a.owns loc → b.owns loc

theorem Allows.mono (h : a.Allows c d) (hab : a.Within b) : b.Allows c d := by
  intro hc
  obtain ⟨hd, hloc⟩ := h hc
  refine ⟨hd, fun loc => ?_⟩
  rcases hloc loc with hsame | howns | ⟨hputs, hfile⟩ | ⟨hmakes, hmade⟩
  · exact .inl hsame
  · exact .inr (.inl (hab.owns loc howns))
  · rcases hab.puts loc hputs with hputs | howns
    · exact .inr (.inr (.inl ⟨hputs, hfile⟩))
    · exact .inr (.inl howns)
  · rcases hab.makes loc hmakes with hmakes | howns
    · exact .inr (.inr (.inr ⟨hmakes, hmade⟩))
    · exact .inr (.inl howns)

theorem Allows.madeAt (h : a.Allows c d) (hc : c.Plain) {loc : Location} (hputs : ¬ a.puts loc)
    (howns : ¬ a.owns loc) : MadeAt a.makes loc c d := by
  rcases (h hc).2 loc with hsame | hown | ⟨hput, -⟩ | hmade
  · exact .inl hsame
  · exact absurd hown howns
  · exact absurd hput hputs
  · exact .inr hmade

theorem Allows.confined (h : a.Allows c d) :
    Confined (fun loc => a.makes loc ∨ a.puts loc ∨ a.owns loc) c d := by
  intro hc
  refine ⟨(h hc).1, fun loc hloc => ?_⟩
  obtain ⟨hmakes, hputs, howns⟩ : ¬ a.makes loc ∧ ¬ a.puts loc ∧ ¬ a.owns loc := by
    simpa only [not_or] using hloc
  exact (h.madeAt hc hputs howns).resolve_right fun hmade => hmakes hmade.1

theorem Allows.of_spares (hconfined : Confined (fun loc => a.makes loc ∨ a.owns loc) c d)
    (hspares : Spares a.owns c d) : a.Allows c d := by
  intro hc
  refine ⟨(hspares hc).1, fun loc => ?_⟩
  by_cases howns : a.owns loc
  · exact .inr (.inl howns)
  by_cases hmakes : a.makes loc
  · rcases (hspares hc).2 loc howns with hsame | hmade
    · exact .inl hsame
    · exact .inr (.inr (.inr ⟨hmakes, hmade⟩))
  · exact .inl ((hconfined hc).2 loc (not_or.2 ⟨hmakes, howns⟩))

theorem Allows.put_file {dir : Location} {name : String} {content : Bytes} {mode : Mode}
    (hname : d.Plain → IsName name) (hputs : d.Plain → a.puts (dir ++ [name])) :
    a.Allows d (d.put dir name (.file content mode)) := by
  intro hd
  refine ⟨hd.put (hname hd) (by simp), fun loc => ?_⟩
  by_cases hloc : loc = dir ++ [name]
  · subst hloc
    by_cases hadmits : d.admits dir name (.file content mode)
    · exact .inr (.inr (.inl ⟨hputs hd, content, mode, by rw [get?_put hadmits, if_pos rfl]⟩))
    · exact .inl (by rw [put, dif_neg hadmits])
  · exact .inl (get?_put_of_ne hloc)

/-- The footprint of making a directory: the places that its path goes through. -/
def ofDir (here : Location) (p : Path) : Footprint :=
  ⟨(· ∈ stops here p), fun _ => False, fun _ => False⟩

/-- The footprint of writing a file: where it is put, and the way to the parent of its path. -/
def ofFile (here : Location) (p : Path) : Footprint :=
  ⟨fun loc => ∃ parent, p.parent? = some parent ∧ loc ∈ stops here parent, (· = goal here p),
    fun _ => False⟩

def ofCopy (here : Location) (p : Path) : Footprint :=
  ⟨(· ∈ stops here p), fun _ => False, (goal here p <+: ·)⟩

theorem ofFile_within {dir : Path} {name : String} (hname : IsName name)
    (hmakes : ∀ x ∈ stops here dir, a.makes x) (hputs : a.puts (goal here dir ++ [name])) :
    (ofFile here (dir / name)).Within a where
  makes loc h := by
    obtain ⟨parent, hparent, hloc⟩ := h
    exact .inl (hmakes loc (mem_stops_of_begins (begins_of_parent?_div hname hparent) hloc))
  puts loc h := by
    rw [h, goal_div hname]
    exact .inl hputs
  owns _ := False.elim

theorem ofCopy_join {p : Path} {names : List String} (h : ∀ name ∈ names, IsName name) :
    ofCopy here (p.join (ofNames names)) = ofCopy here (p.below names) := by
  rw [ofCopy, stops_join_ofNames h, goal_join_ofNames h, ofCopy, goal_below h]

theorem ofCopy_within {dir : Path} {name : String} (hname : IsName name)
    (hmakes : ∀ x ∈ stops here dir, a.makes x)
    (howns : ∀ rest, a.owns (goal here dir ++ name :: rest)) :
    (ofCopy here (dir / name)).Within a := by
  have hbelow (loc : Location) (h : goal here (dir / name) <+: loc) : a.owns loc := by
    obtain ⟨rest, rfl⟩ := h
    rw [goal_div hname, List.append_assoc]
    exact howns rest
  refine ⟨fun loc (h : loc ∈ stops here (dir / name)) => ?_, fun _ => False.elim, hbelow⟩
  rw [stops_div hname, List.mem_append] at h
  refine h.imp (hmakes loc) fun h => hbelow loc ?_
  have hloc : loc = goal here (dir / name) := by rw [List.mem_singleton.1 h, goal_div hname]
  exact hloc ▸ List.prefix_refl _

end Footprint

end Disk

open Disk.Footprint

namespace Access

theorem copyFile_allows (source target : Path) :
    Moves (ofFile here target).Allows here (copyFile source target) := by
  refine copyFile_moves fun executable c dir name mode d h content mode' hc => ?_
  obtain ⟨hgoal, hname⟩ := openFile_plain hc h
  obtain ⟨-, rfl, -⟩ := openFile_eq_ok h
  have hput {b : Disk} (content : Bytes) (mode : Mode) :
      (ofFile here target).Allows b (b.put dir name (.file content mode)) :=
    .put_file (fun _ => hname) fun _ => hgoal
  exact trans_of (ofFile here target).Allows (hput [] mode) (hput content mode') hc

end Access

namespace Files

theorem ensureDir_allows (p : Path) : Moves (ofDir here p).Allows here (ensureDir p) := fun c =>
  .of_spares (ensureDir_confined (fun _ hx => .inl hx) c) (ensureDir_spares p c)

theorem ensureParent_allows (p : Path) : Moves (ofFile here p).Allows here (ensureParent p) := by
  rw [ensureParent]
  split
  · rename_i parent hparent
    intro c
    refine (ensureDir_allows parent c).mono ⟨fun loc hloc => .inl ?_, fun _ => False.elim, ?_⟩
    · exact ⟨parent, hparent, hloc⟩
    · exact fun _ => False.elim
  · exact .pure ()

theorem copyFile_allows (source target : Path) :
    Moves (ofFile here target).Allows here (copyFile source target) :=
  .bind (ensureParent_allows target) fun _ => (Access.copyFile_allows source target).mapError _

theorem copyTo_allows {source : Path} (target : Path) (hsteps : source.steps ≠ []) :
    Moves (ofCopy here target).Allows here (copyTo source target) := fun c =>
  .of_spares (copyTo_confined hsteps (fun _ hx => hx) c)
    (copyTo_spares hsteps (fun rest => List.prefix_append _ rest) c)

theorem copyInto_allows {base dir : Path} {name : String} (hname : IsName name) :
    Moves (ofCopy here (dir / name)).Allows here (copyInto (base / name) dir) := by
  rw [copyInto, fileName?_div hname]
  exact .bind (copyTo_allows _ (by simp [steps_div hname])) fun _ => .pure _

end Files

end GemStaging
