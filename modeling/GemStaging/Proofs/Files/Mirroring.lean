import GemStaging.Proofs.Files.Tallying

/-!
Which directories a copy makes. Where what is copied and its target lie beside one another, a copy
that succeeds makes directories on the way of its target, and below its goal only where there are
directories below its source too (`Files.copyTo_mirrors`).
-/

namespace GemStaging

open Effect Disk GemStaging.Path

variable {here : Location} {ways : Location → Prop}

namespace Disk

/-- Nothing was removed, and every directory that was made is on a way, or there is one at the same
place below a source. -/
structure Mirrors (ways : Location → Prop) (source place : Location) (c d : Disk) : Prop where
  grown : c.Grows d
  made : ∀ loc, c.get? loc = none → d.get? loc = some .directory →
    ways loc ∨ ∃ rest, loc = place ++ rest ∧ d.get? (source ++ rest) = some .directory

namespace Mirrors
variable {source place : Location} {c d : Disk}

instance : IsPreorder Disk (Mirrors ways source place) where
  refl d := ⟨.refl d, fun _ hnone hdir => by simp [hnone] at hdir⟩
  trans b c d h h' := by
    refine ⟨h.grown.trans h'.grown, fun loc hnone hdir => ?_⟩
    cases hc : c.get? loc with
    | none => exact h'.made loc hc hdir
    | some e =>
      obtain ⟨e', he', hcontinues⟩ := h'.grown loc e hc
      obtain rfl := Option.some.inj (hdir.symm.trans he')
      cases hcontinues
      rcases h.made loc hnone hc with hway | ⟨rest, rfl, hsource⟩
      · exact .inl hway
      · exact .inr ⟨rest, rfl, h'.grown.directory hsource⟩

theorem of_below {names : List String} (h : Mirrors ways (source ++ names) (place ++ names) c d) :
    Mirrors ways source place c d where
  grown := h.grown
  made loc hnone hdir := by
    refine (h.made loc hnone hdir).imp_right ?_
    rintro ⟨rest, rfl, hsource⟩
    exact ⟨names ++ rest, List.append_assoc _ _ _, List.append_assoc _ _ _ ▸ hsource⟩

end Mirrors

end Disk

namespace Files

variable {source target : Path} {names : List String} {n : Nat} {c d : Disk}

/-- Turns that each move the disk along a relation, and keep what they need, move it so together. -/
theorem sumNames_rel {I : Disk → Prop} {R : Disk → Disk → Prop} [IsPreorder Disk R]
    {f : String → Files Nat}
    (hturn : ∀ name ∈ names, ∀ c k d, I c → f name here c = (.ok k, d) → I d ∧ R c d)
    (hc : I c) (h : sumNames f names here c = (.ok n, d)) : R c d := by
  induction names generalizing c n with
  | nil =>
    obtain ⟨-, rfl⟩ := ok_inj h
    exact refl_of R c
  | cons name rest ih =>
    obtain ⟨hname, hrest⟩ := List.forall_mem_cons.1 hturn
    obtain ⟨k, c₁, hfirst, h⟩ := bind_eq_ok_iff.1 h
    obtain ⟨more, c₂, hmore, h⟩ := bind_eq_ok_iff.1 h
    obtain ⟨-, rfl⟩ := ok_inj h
    obtain ⟨hc₁, hone⟩ := hname c k c₁ hc hfirst
    exact trans_of R hone (ih hrest hc₁ hmore)

section Copying
variable (hways : ∀ x ∈ stops here target, ways x ∨ x = goal here target)
include hways

/-- Directories that are made on the way to a place below the target stand for those on the way to
the same place below the source. -/
theorem mirrors_of_confined (hnames : ∀ name ∈ names, IsName name) (hc : c.Plain)
    (hgrows : c.Grows d) (hconfined : Confined (· ∈ stops here (target.below names)) c d)
    (hthere : (c.get? (goal here source ++ names)).isSome)
    (hgoal : d.get? (goal here target ++ names) = some .directory →
      d.get? (goal here source ++ names) = some .directory) :
    Mirrors ways (goal here source) (goal here target) c d := by
  refine ⟨hgrows, fun loc hnone hdir => ?_⟩
  have hstop : loc ∈ stops here (target.below names) := by
    by_contra hstop
    rw [(hconfined hc).2 loc hstop, hnone] at hdir
    cases hdir
  have hplace : ways loc ∨ ∃ pre, loc = goal here target ++ pre ∧ pre <+: names := by
    rcases mem_stops_below hnames hstop with hstop | ⟨⟨pre, rfl⟩, hpre⟩
    · refine (hways loc hstop).imp_right fun h => ⟨[], ?_, List.nil_prefix⟩
      rw [h, List.append_nil]
    · exact .inr ⟨pre, rfl, (List.prefix_append_right_inj _).1 hpre⟩
  refine hplace.imp_right ?_
  rintro ⟨pre, rfl, rest, rfl⟩
  refine ⟨pre, rfl, ?_⟩
  rcases eq_or_ne rest [] with rfl | hrest
  · rw [List.append_nil] at hgoal
    exact hgoal hdir
  · rw [← List.append_assoc] at hthere
    exact hgrows.directory (get?_of_below hrest hthere)

variable (hbeside : Beside (goal here source) (goal here target))
include hbeside

theorem copyFile_mirrors {source' target' : Path} (hnames : ∀ name ∈ names, IsName name)
    (hsource : goal here source' = goal here source ++ names)
    (htarget : goal here target' = goal here target ++ names)
    (hstops : stops here target' = stops here (target.below names)) (hc : c.Plain)
    (hhere : c.get? here = some .directory) (h : copyFile source' target' here c = (.ok (), d)) :
    Mirrors ways (goal here source) (goal here target) c d := by
  have hne : goal here source' ≠ goal here target' := by
    rw [hsource, htarget]
    intro heq
    exact (hbeside.append names names).1 (heq ▸ List.prefix_refl _)
  obtain ⟨content, mode, hfile, hput⟩ := file_of_copyFile hc hhere hne h
  rw [hsource] at hfile
  rw [htarget] at hput
  have hconfined : Confined (· ∈ stops here target') c d :=
    (copyFile_confined _ fun _ hx => hx).of_eq h
  rw [hstops] at hconfined
  refine mirrors_of_confined hways hnames hc ((copyFile_grows _ _).of_eq h) hconfined
    (by rw [hfile]; rfl) fun hdir => ?_
  rw [hput] at hdir
  cases hdir

theorem copyBelow_mirrors (hsteps : source.steps ≠ []) (fuel : Nat) (above : Trail)
    (hnames : ∀ name ∈ names, IsName name) (hc : c.Plain) (hhere : c.get? here = some .directory)
    (h : copyBelow source target fuel above (source.below names) here c = (.ok n, d)) :
    Mirrors ways (goal here source) (goal here target) c d := by
  induction fuel generalizing above names n c d with
  | zero => simp [copyBelow] at h
  | succ fuel ih =>
    obtain ⟨hdir, c', trail, hensure, h⟩ | ⟨-, hcopy, -⟩ :=
      copyBelow_cases hsteps hnames hc h
    · have hgrows : c.Grows c' := (ensureDir_grows _).of_eq hensure
      have hconfined : Confined (· ∈ stops here (target.join (ofNames names))) c c' :=
        (ensureDir_confined fun _ hx => hx).of_eq hensure
      rw [stops_join_ofNames hnames] at hconfined
      have hmade : Mirrors ways (goal here source) (goal here target) c c' :=
        mirrors_of_confined hways hnames hc hgrows hconfined (by rw [hdir]; rfl)
          fun _ => hgrows.directory hdir
      refine trans_of (Mirrors ways _ _) hmade
        (sumNames_rel (I := fun b => b.Plain ∧ b.get? here = some .directory)
          (fun name hname b k b' hb hcopy => ?_) ⟨(hconfined hc).1, hgrows.directory hhere⟩ h)
      have hnames' := isName_of_mem_concat hnames (hc.isName_of_mem_names hname)
      have hspares : Spares (fun _ => True) b b' :=
        (copyBelow_spares hsteps (fun _ => trivial) _ _ hnames').of_eq hcopy
      have hgrows' := (copyBelow_grows _ _ _ _ _).of_eq hcopy
      exact ⟨⟨(hspares hb.1).1, hgrows'.directory hb.2⟩, ih _ hnames' hb.1 hb.2 hcopy⟩
    · exact copyFile_mirrors hways hbeside hnames (goal_below hnames) (goal_join_ofNames hnames)
        (stops_join_ofNames hnames) hc hhere hcopy

theorem copyTo_mirrors (hc : c.Plain) (hhere : c.get? here = some .directory)
    (h : copyTo source target here c = (.ok n, d)) :
    Mirrors ways (goal here source) (goal here target) c d := by
  have hnone : ∀ name ∈ ([] : List String), IsName name := by simp
  obtain ⟨hdir, h⟩ | ⟨-, -, hcopy, rfl⟩ := copyTo_eq_ok h
  · obtain ⟨-, h⟩ := copyTree_eq_ok h
    exact copyBelow_mirrors hways hbeside (steps_ne_nil_of_isDirAt hdir) maxDepth [] hnone hc hhere
      h
  · exact copyFile_mirrors hways hbeside hnone (List.append_nil _).symm (List.append_nil _).symm rfl
      hc hhere hcopy

end Copying

end Files

end GemStaging
