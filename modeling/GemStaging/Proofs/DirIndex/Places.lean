import GemStaging.DirIndex.Basic
import GemStaging.Disk.Access
import GemStaging.Proofs.Disk.Counting
import GemStaging.Proofs.Disk.Growth
import GemStaging.Proofs.Disk.Plain

/-!
Where indexes belong: into each directory that no hidden name leads to from the top of a tree
(`DirIndex.shownBelow`). An index is a hidden file, so that writing indexes changes neither where
indexes belong nor what is to stand in them (`DirIndex.Indexed`).
-/

namespace GemStaging.DirIndex

open Disk GemStaging.Path

variable {loc dir top : Location} {name : String} {b c d : Disk}

theorem isName_fileName : IsName fileName := by
  refine ⟨?_, ?_, ?_, ?_⟩ <;> decide

theorem isHidden_fileName : isHidden fileName = true := by decide

section Listings
variable {names : List String}

theorem visible_of_ascending (h : names.Pairwise (· < ·)) :
    visible names = names.filter (!isHidden ·) := by
  refine List.mergeSort_of_pairwise ((h.filter _).imp fun hlt => ?_)
  simpa using String.not_lt.1 (String.lt_asymm hlt)

theorem render_names_congr
    (h : ∀ name, isHidden name = false →
      (c.get? (dir ++ [name])).isSome = (d.get? (dir ++ [name])).isSome) :
    render (c.names dir) = render (d.names dir) := by
  have hsame : visible (c.names dir) = visible (d.names dir) := by
    rw [visible_of_ascending (names_ascending c dir),
      visible_of_ascending (names_ascending d dir)]
    refine ((names_ascending c dir).filter _).eq_of_mem_iff
      ((names_ascending d dir).filter _) fun name => ?_
    rw [List.mem_filter, List.mem_filter, mem_names_iff, mem_names_iff]
    refine and_congr_left fun hname => ?_
    rw [h name (by simpa using hname)]
  rw [render, hsame, render]

/-- The names under which directories stand in a directory, those that are hidden left out. -/
def shownNames (d : Disk) (dir : Location) : List String :=
  (d.names dir).filter fun name => !isHidden name && d.isDirectory (dir ++ [name])

theorem mem_shownNames :
    name ∈ shownNames d dir ↔ isHidden name = false ∧ d.get? (dir ++ [name]) = some .directory := by
  simp only [shownNames, List.mem_filter, mem_names_iff, isDirectory, Bool.and_eq_true,
    Bool.not_eq_eq_eq_not, Bool.not_true, beq_iff_eq]
  constructor
  · exact And.right
  · rintro ⟨hname, hdir⟩
    exact ⟨by rw [hdir]; rfl, hname, hdir⟩

theorem shownNames_congr
    (h : ∀ name, c.get? (dir ++ [name]) = some .directory ↔
      d.get? (dir ++ [name]) = some .directory) :
    shownNames c dir = shownNames d dir := by
  refine ((names_ascending c dir).filter _).eq_of_mem_iff
    ((names_ascending d dir).filter _) fun name => ?_
  have hiff : name ∈ shownNames c dir ↔ name ∈ shownNames d dir := by
    rw [mem_shownNames, mem_shownNames, h]
  exact hiff

theorem nodup_shownNames (d : Disk) (dir : Location) : (shownNames d dir).Nodup :=
  (names_nodup d dir).filter _

/-- The directories at or below a place that no hidden name leads to from there. -/
def shownBelow (d : Disk) (top : Location) : Finset Location :=
  (d.entriesBelow top).filter fun dir =>
    d.get? dir = some .directory ∧ ∀ name ∈ dir.drop top.length, isHidden name = false

theorem mem_shownBelow :
    dir ∈ shownBelow d top ↔
      ∃ rel, dir = top ++ rel ∧ d.get? dir = some .directory ∧
        ∀ name ∈ rel, isHidden name = false := by
  rw [shownBelow, Finset.mem_filter, mem_entriesBelow]
  constructor
  · rintro ⟨⟨⟨rel, rfl⟩, -⟩, hdir, hshown⟩
    exact ⟨rel, rfl, hdir, by simpa using hshown⟩
  · rintro ⟨rel, rfl, hdir, hshown⟩
    exact ⟨⟨List.prefix_append _ _, by rw [hdir]; rfl⟩, hdir, by simpa using hshown⟩

theorem self_mem_shownBelow (h : d.get? top = some .directory) : top ∈ shownBelow d top :=
  mem_shownBelow.2 ⟨[], by simp, h, by simp⟩

theorem shownBelow_eq (h : d.get? top = some .directory) :
    shownBelow d top = insert top
      ((shownNames d top).toFinset.biUnion fun name => shownBelow d (top ++ [name])) := by
  ext dir
  simp only [Finset.mem_insert, Finset.mem_biUnion, List.mem_toFinset, mem_shownBelow,
    mem_shownNames]
  constructor
  · rintro ⟨rel, rfl, hdir, hshown⟩
    cases rel with
    | nil => exact .inl (by simp)
    | cons name rest =>
      obtain ⟨hname, hrest⟩ := List.forall_mem_cons.1 hshown
      rw [List.append_cons] at hdir ⊢
      have hstep := directory_upward (List.prefix_append _ _) hdir
      exact .inr ⟨name, ⟨hname, hstep⟩, rest, rfl, hdir, hrest⟩
  · rintro (rfl | ⟨name, ⟨hname, -⟩, rest, rfl, hdir, hrest⟩)
    · exact ⟨[], by simp, h, by simp⟩
    · exact ⟨name :: rest, by simp, hdir, List.forall_mem_cons.2 ⟨hname, hrest⟩⟩

theorem card_shownBelow (h : d.get? top = some .directory) :
    (shownBelow d top).card =
      1 + ((shownNames d top).map fun name => (shownBelow d (top ++ [name])).card).sum := by
  have hdisjoint (name name' : String) (hne : name ≠ name') :
      Disjoint (shownBelow d (top ++ [name])) (shownBelow d (top ++ [name'])) := by
    rw [Finset.disjoint_left]
    intro dir hdir hdir'
    obtain ⟨rel, rfl, -⟩ := mem_shownBelow.1 hdir
    obtain ⟨rel', heq, -⟩ := mem_shownBelow.1 hdir'
    rw [List.append_assoc, List.append_assoc, List.append_cancel_left_eq] at heq
    exact hne (List.cons.inj heq).1
  have hself : top ∉ (shownNames d top).toFinset.biUnion fun name =>
      shownBelow d (top ++ [name]) := by
    rw [Finset.mem_biUnion]
    rintro ⟨name, -, hdir⟩
    obtain ⟨rel, heq, -⟩ := mem_shownBelow.1 hdir
    simpa using congrArg List.length heq
  rw [shownBelow_eq h, Finset.card_insert_of_notMem hself,
    Finset.card_biUnion fun name _ name' _ hne => hdisjoint name name' hne,
    List.sum_toFinset _ (nodup_shownNames d top), Nat.add_comm]

end Listings

/-- Indexes were written into some directories, and nothing else has changed. -/
structure Indexed (dirs : Finset Location) (c d : Disk) : Prop where
  takes : ∀ dir ∈ dirs, c.TakesFile (dir ++ [fileName])
  fits : ∀ dir ∈ dirs, (Text.encode (render (c.names dir))).length ≤ Access.maxFile
  index : ∀ dir ∈ dirs, ∃ mode : Mode, mode.Steady ∧
    d.get? (dir ++ [fileName]) = some (.file (Text.encode (render (c.names dir))) mode)
  others : ∀ loc, (∀ dir ∈ dirs, loc ≠ dir ++ [fileName]) → d.get? loc = c.get? loc

namespace Indexed
variable {dirs more : Finset Location}

theorem refl (d : Disk) : Indexed ∅ d d := ⟨by simp, by simp, by simp, fun _ _ => rfl⟩

theorem get?_shown (h : Indexed dirs c d) (hname : isHidden name = false) :
    d.get? (loc ++ [name]) = c.get? (loc ++ [name]) := by
  refine h.others _ fun dir _ heq => ?_
  have hlast : name = fileName := by simpa using (List.append_inj' heq rfl).2
  rw [hlast, isHidden_fileName] at hname
  cases hname

theorem render_names (h : Indexed dirs c d) (dir : Location) :
    render (d.names dir) = render (c.names dir) :=
  render_names_congr fun name hname => by rw [h.get?_shown hname]

theorem cases (h : Indexed dirs c d) (loc : Location) :
    d.get? loc = c.get? loc ∨
      c.TakesFile loc ∧ ∃ content mode, d.get? loc = some (.file content mode) := by
  by_cases hloc : ∀ dir ∈ dirs, loc ≠ dir ++ [fileName]
  · exact .inl (h.others loc hloc)
  · push Not at hloc
    obtain ⟨dir, hdir, rfl⟩ := hloc
    obtain ⟨mode, -, hfile⟩ := h.index dir hdir
    exact .inr ⟨h.takes dir hdir, _, mode, hfile⟩

theorem grows (h : Indexed dirs c d) : c.Grows d := by
  intro loc e he
  rcases h.cases loc with hsame | ⟨hnone | ⟨content, mode, hfile⟩, content', mode', hfile'⟩
  · exact ⟨e, hsame.trans he, .same e⟩
  · rw [hnone] at he
    cases he
  · obtain rfl := Option.some.inj (hfile.symm.trans he)
    exact ⟨_, hfile', .rewritten⟩

theorem directory_iff (h : Indexed dirs c d) :
    d.get? loc = some .directory ↔ c.get? loc = some .directory := by
  rcases h.cases loc with hsame | ⟨htakes, content, mode, hfile⟩
  · rw [hsame]
  · rw [hfile]
    rcases htakes with hnone | ⟨content', mode', hfile'⟩
    · simp [hnone]
    · simp [hfile']

theorem plain (h : Indexed dirs c d) (hc : c.Plain) : d.Plain := by
  constructor
  · intro loc target hlink
    rcases h.cases loc with hsame | ⟨-, content, mode, hfile⟩
    · exact hc.linkless loc target (hsame ▸ hlink)
    · simp [hfile] at hlink
  · intro loc name hsome
    by_cases hname : isHidden name = false
    · exact hc.named loc name (h.get?_shown hname ▸ hsome)
    · by_cases hindex : name = fileName
      · exact hindex ▸ isName_fileName
      · refine hc.named loc name (h.others _ (fun dir _ heq => hindex ?_) ▸ hsome)
        simpa using (List.append_inj' heq rfl).2

theorem shownNames_eq (h : Indexed dirs c d) (dir : Location) :
    shownNames d dir = shownNames c dir :=
  shownNames_congr fun _ => h.directory_iff

theorem trans (h : Indexed dirs b c) (h' : Indexed more c d) : Indexed (dirs ∪ more) b d := by
  have hkept {dir : Location} (hdir : dir ∉ dirs) :
      c.get? (dir ++ [fileName]) = b.get? (dir ++ [fileName]) := by
    refine h.others _ fun other hother heq => hdir ?_
    rwa [(List.append_inj' heq rfl).1]
  constructor
  · intro dir hdir
    by_cases hfirst : dir ∈ dirs
    · exact h.takes dir hfirst
    · have htakes := h'.takes dir ((Finset.mem_union.1 hdir).resolve_left hfirst)
      rwa [TakesFile, hkept hfirst] at htakes
  · intro dir hdir
    by_cases hsecond : dir ∈ more
    · rw [← h.render_names]
      exact h'.fits dir hsecond
    · exact h.fits dir ((Finset.mem_union.1 hdir).resolve_right hsecond)
  · intro dir hdir
    by_cases hsecond : dir ∈ more
    · rw [← h.render_names]
      exact h'.index dir hsecond
    · obtain ⟨mode, hmode, hfile⟩ := h.index dir ((Finset.mem_union.1 hdir).resolve_right hsecond)
      refine ⟨mode, hmode, (h'.others _ fun other hother heq => hsecond ?_).trans hfile⟩
      rwa [(List.append_inj' heq rfl).1]
  · intro loc hloc
    rw [h'.others loc fun dir hdir => hloc dir (Finset.mem_union_right _ hdir),
      h.others loc fun dir hdir => hloc dir (Finset.mem_union_left _ hdir)]

end Indexed

end GemStaging.DirIndex
