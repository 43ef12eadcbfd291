import GemStaging.Proofs.Files.Overlay

/-!
Copying a directory into itself. Where the goal lies deeper in the directory that is copied, each
step of the walk makes the directory that the walk comes to next but some steps, so the walk never
ends: no such copy succeeds (`Files.copyTree_ne_ok`).
-/

namespace GemStaging.Files

open Effect Disk GemStaging.Path

variable {here : Location} {source target : Path} {c d : Disk}

/-- Where a sum was taken, each name had its turn, and what every turn keeps held before it. -/
theorem sumNames_turn {f : String → Files Nat} {inv : Disk → Prop} {names : List String} {n : Nat}
    (hkeeps : ∀ name ∈ names, ∀ c k d, inv c → f name here c = (.ok k, d) → inv d) (hc : inv c)
    (h : sumNames f names here c = (.ok n, d)) {name : String} (hname : name ∈ names) :
    ∃ c' k d', inv c' ∧ f name here c' = (.ok k, d') := by
  induction names generalizing c n with
  | nil => simp at hname
  | cons first rest ih =>
    obtain ⟨hfirst, hrest⟩ := List.forall_mem_cons.1 hkeeps
    obtain ⟨k, c₁, hturn, h⟩ := bind_eq_ok_iff.1 h
    obtain ⟨more, c₂, hmore, h⟩ := bind_eq_ok_iff.1 h
    obtain ⟨-, rfl⟩ := ok_inj h
    rcases List.mem_cons.1 hname with rfl | hname
    · exact ⟨c, k, c₁, hc, hturn⟩
    · exact ih hrest (hfirst c k c₁ hc hturn) hmore hname

/-- A list that goes on as some names repeated do, and is shorter by more than one than with the
names once more in front, is followed by a name that keeps it so. -/
theorem exists_next {way names : List String} (hway : 2 ≤ way.length)
    (hrepeats : names <+: way ++ names) :
    ∃ next more, (way ++ names).dropLast = names ++ next :: more ∧
      names ++ [next] <+: way ++ (names ++ [next]) := by
  obtain ⟨tail, htail⟩ := hrepeats
  have hlength := congrArg List.length htail
  rw [List.length_append, List.length_append] at hlength
  cases tail with
  | nil =>
    rw [List.length_nil] at hlength
    omega
  | cons next tail =>
    have htailNe : tail ≠ [] := by
      rintro rfl
      rw [List.length_singleton] at hlength
      omega
    refine ⟨next, tail.dropLast, ?_, ?_⟩
    · rw [← htail, List.dropLast_append_of_ne_nil (List.cons_ne_nil _ _),
        List.dropLast_cons_of_ne_nil htailNe]
    · rw [← List.append_assoc, ← htail]
      exact ⟨tail ++ [next], by simp⟩

/-- A disk without links on which a walk finds a directory at a place. -/
structure Ready (here place : Location) (c : Disk) : Prop where
  plain : c.Plain
  atHome : c.get? here = some .directory
  ahead : c.get? place = some .directory

theorem Ready.of_copyBelow {place : Location} {fuel n : Nat} {above : Trail} {names : List String}
    (hready : Ready here place c) (hsteps : source.steps ≠ [])
    (hnames : ∀ name ∈ names, IsName name)
    (h : copyBelow source target fuel above (source.below names) here c = (.ok n, d)) :
    Ready here place d := by
  have hg : c.Grows d := (copyBelow_grows _ _ _ _ _).of_eq h
  have hconfined : Moves (Confined fun _ => True) here
      (copyBelow source target fuel above (source.below names)) :=
    copyBelow_confined hsteps (fun _ _ => trivial) fuel above hnames
  exact ⟨(hconfined.of_eq h hready.plain).1, hg.directory hready.atHome, hg.directory hready.ahead⟩

theorem copyBelow_ne_ok (hsteps : source.steps ≠ []) {way : List String} (hway : 2 ≤ way.length)
    (hgoal : goal here target = goal here source ++ way) (fuel : Nat) (above : Trail)
    {names : List String} (hnames : ∀ name ∈ names, IsName name) (hrepeats : names <+: way ++ names)
    (hready : Ready here (goal here source ++ (way ++ names).dropLast) c) (n : Nat) :
    copyBelow source target fuel above (source.below names) here c ≠ (.ok n, d) := by
  induction fuel generalizing above names n c d with
  | zero => simp [copyBelow]
  | succ fuel ih =>
    intro h
    obtain ⟨hc, hhere, hahead⟩ := hready
    obtain ⟨next, more, hsplit, hrepeats'⟩ := exists_next hway hrepeats
    rw [hsplit, ← List.append_assoc] at hahead
    have hdir : c.get? (goal here source ++ names) = some .directory :=
      directory_upward (List.prefix_append _ _) hahead
    have hnext : next ∈ c.names (goal here source ++ names) :=
      mem_names_of_below (by rw [hahead]; rfl)
    obtain ⟨-, c', trail, hensure, h⟩ :=
      (copyBelow_cases hsteps hnames hc h).resolve_right fun hfile => hfile.1 hdir
    obtain ⟨hc', hmade⟩ := ensureDir_patched hc hhere hensure
    -- the step has made the directory that the walk comes to once it has gone the way once more
    have hahead' : c'.get? (goal here source ++ (way ++ names)) = some .directory := by
      have hloc := hmade (goal here (target.join (ofNames names)))
      rw [Tree.directories, if_pos (goal_mem_stops here _), goal_join_ofNames hnames, hgoal] at hloc
      simpa using hloc
    have hready' : Ready here (goal here source ++ (way ++ names)) c' :=
      ⟨hc', (ensureDir_extends _).of_eq hensure here _ hhere, hahead'⟩
    have hconcat {name : String} (hname : name ∈ c.names (goal here source ++ names)) :
        ∀ n ∈ names ++ [name], IsName n :=
      isName_of_mem_concat hnames (hc.isName_of_mem_names hname)
    have hkeeps : ∀ name ∈ c.names (goal here source ++ names), ∀ c₁ k d₁,
        Ready here (goal here source ++ (way ++ names)) c₁ →
        copyBelow source target fuel trail (source.below (names ++ [name])) here c₁ = (.ok k, d₁) →
        Ready here (goal here source ++ (way ++ names)) d₁ := by
      intro name hname c₁ k d₁ hready₁ hturn
      exact hready₁.of_copyBelow hsteps (hconcat hname) hturn
    obtain ⟨c₁, k, d₁, hready₁, hturn⟩ := sumNames_turn hkeeps hready' h hnext
    refine ih _ (hconcat hnext) hrepeats' ?_ k hturn
    rwa [← List.append_assoc, List.dropLast_concat]

/-- No directory is copied to a place in it that is not right below its top, where the directory of
that place is there. -/
theorem copyTree_ne_ok {way : List String} (hway : 2 ≤ way.length)
    (hgoal : goal here target = goal here source ++ way) (hc : c.Plain)
    (hhere : c.get? here = some .directory)
    (habove : c.get? (goal here target).dropLast = some .directory) (n : Nat) :
    copyTree source target here c ≠ (.ok n, d) := by
  intro h
  obtain ⟨hdir, h⟩ := copyTree_eq_ok h
  have hne : way ≠ [] := by
    rintro rfl
    simp at hway
  have hnone : ∀ name ∈ [], IsName name := by simp
  rw [hgoal, List.dropLast_append_of_ne_nil hne, ← List.append_nil way] at habove
  exact copyBelow_ne_ok (steps_ne_nil_of_isDirAt hdir) hway hgoal maxDepth [] hnone List.nil_prefix
    ⟨hc, hhere, habove⟩ n h

end GemStaging.Files
