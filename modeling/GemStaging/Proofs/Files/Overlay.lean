import GemStaging.Proofs.Files.Confinement

/-!
What copying amounts to. On a disk without links, copying a tree lays it over what stands at its
goal: what the tree holds comes first, and everything else is as it was, except that the places on
the way to the goal are directories now (`Files.copyInto_lays`).
-/

namespace GemStaging

open Effect Disk GemStaging.Path

/-- What stands below a place: at each place an entry, or none. -/
abbrev Tree := Location → Option Entry

namespace Tree

/-- One tree laid over another one: what the first has hides what the second has. -/
def atop (new old : Tree) : Tree := fun loc => (new loc).or (old loc)

def shift (place : Location) (new : Tree) : Tree := fun loc =>
  if place <+: loc then new (loc.drop place.length) else none

def directories (places : List Location) : Tree := fun loc =>
  if loc ∈ places then some .directory else none

@[simp] theorem shift_append (place : Location) (new : Tree) (rest : Location) :
    new.shift place (place ++ rest) = new rest := by
  simp [shift]

theorem shift_of_not_below {place loc : Location} (h : ¬ place <+: loc) (new : Tree) :
    new.shift place loc = none := if_neg h

end Tree

namespace Disk

def under (d : Disk) (place : Location) : Tree := fun rest => d.get? (place ++ rest)

/-- The second disk is the first one with a tree laid over it. -/
def Patched (new : Tree) (c d : Disk) : Prop := ∀ loc, d.get? loc = (new loc).or (c.get? loc)

/-- Neither place is the other one or lies below it. -/
def Beside (x y : Location) : Prop := ¬ x <+: y ∧ ¬ y <+: x

theorem Beside.symm {x y : Location} (h : Beside x y) : Beside y x := And.symm h

theorem Beside.append {x y : Location} (h : Beside x y) (rest rest' : Location) :
    Beside (x ++ rest) (y ++ rest') := by
  have hx {more : Location} (hbelow : x <+: y ++ more) : False := by
    rcases List.prefix_or_prefix_of_prefix hbelow (List.prefix_append y more) with hxy | hyx
    · exact h.1 hxy
    · exact h.2 hyx
  have hy {more : Location} (hbelow : y <+: x ++ more) : False := by
    rcases List.prefix_or_prefix_of_prefix hbelow (List.prefix_append x more) with hyx | hxy
    · exact h.2 hyx
    · exact h.1 hxy
  exact ⟨fun hbelow => hx ((List.prefix_append _ _).trans hbelow),
    fun hbelow => hy ((List.prefix_append _ _).trans hbelow)⟩

theorem Beside.left {x y : Location} (h : Beside x y) (rest : Location) : Beside (x ++ rest) y := by
  have happend := h.append rest []
  rwa [List.append_nil] at happend

theorem Beside.right {x y : Location} (h : Beside x y) (rest : Location) : Beside x (y ++ rest) :=
  (h.symm.left rest).symm

theorem Patched.under_eq {new : Tree} {source place : Location} {ways : List Location} {c d : Disk}
    (h : Patched ((new.shift place).atop (.directories ways)) c d) (hbeside : Beside source place)
    (hways : ∀ x ∈ ways, ¬ source <+: x) : d.under source = c.under source := by
  funext rest
  have hplace : ¬ place <+: source ++ rest := (hbeside.left rest).2
  have hfree : source ++ rest ∉ ways := fun hmem => hways _ hmem (List.prefix_append _ _)
  rw [under, h, Tree.atop, Tree.shift_of_not_below hplace, Tree.directories, if_neg hfree]
  rfl

theorem get?_append_of_ne {d : Disk} {loc rest : Location} (h : d.get? loc ≠ some .directory)
    (hrest : rest ≠ []) : d.get? (loc ++ rest) = none := by
  rw [Option.eq_none_iff_forall_ne_some]
  intro e he
  exact h (get?_of_below hrest (by rw [he]; rfl))

/-- Below a place the entries under some names were overlaid by those of a tree. The places on the
way are directories then, if there is a name at all, and nothing else has changed. -/
structure Overlaid (ways : List Location) (place : Location) (new : Tree) (names : List String)
    (c d : Disk) : Prop where
  chosen : ∀ name ∈ names, ∀ rest,
    d.get? (place ++ name :: rest) = (new (name :: rest)).or (c.get? (place ++ name :: rest))
  others : ∀ loc, (∀ name ∈ names, ¬ place ++ [name] <+: loc) →
    d.get? loc = if names ≠ [] ∧ loc ∈ ways then some .directory else c.get? loc

theorem not_prefix_of_ne {place rest : Location} {name name' : String} (h : name ≠ name') :
    ¬ place ++ [name] <+: place ++ name' :: rest := by
  rw [List.prefix_append_right_inj]
  simpa using h

theorem beside_of_ne {place : Location} {name name' : String} (h : name ≠ name') :
    Beside (place ++ [name]) (place ++ [name']) :=
  ⟨not_prefix_of_ne h, not_prefix_of_ne h.symm⟩

namespace Overlaid
variable {ways : List Location} {place : Location} {new : Tree} {name : String} {rest : List String}
variable {b c d : Disk}

theorem nil (c : Disk) : Overlaid ways place new [] c c where
  chosen := by simp
  others := by simp

variable (hways : ∀ x ∈ ways, ∀ name, ¬ place ++ [name] <+: x)
include hways

theorem not_mem_ways (name : String) (more : Location) : place ++ name :: more ∉ ways := fun hmem =>
  hways _ hmem name (by simp [List.prefix_append_right_inj])

theorem cons (h : Overlaid ways place new [name] b c) (h' : Overlaid ways place new rest c d) :
    Overlaid ways place new (name :: rest) b d := by
  have hfree := not_mem_ways hways
  constructor
  · intro n hn more
    by_cases hrest : n ∈ rest
    · rw [h'.chosen n hrest more]
      by_cases heq : n = name
      · rw [h.chosen n (by simp [heq]) more]
        cases new (n :: more) <;> rfl
      · have hnot : ¬ place ++ [name] <+: place ++ n :: more := not_prefix_of_ne (Ne.symm heq)
        rw [h.others _ (by simpa only [List.forall_mem_singleton] using hnot),
          if_neg (by simp [hfree])]
    · obtain rfl : n = name := (List.mem_cons.1 hn).resolve_right hrest
      rw [h'.others, if_neg (by simp [hfree]), h.chosen n (by simp) more]
      exact fun n' hn' => not_prefix_of_ne fun heq => hrest (heq ▸ hn')
  · intro loc hloc
    obtain ⟨hfirst, hothers⟩ := List.forall_mem_cons.1 hloc
    rw [h'.others loc hothers, h.others loc (by simpa using hfirst)]
    by_cases hmem : loc ∈ ways <;> simp [hmem]

omit hways in
theorem of_paved {names : List String} (hpaved : ∀ x ∈ ways, c.get? x = some .directory)
    (h : Overlaid [] place new names c d) : Overlaid ways place new names c d := by
  refine ⟨h.chosen, ?_⟩
  intro loc hloc
  rw [h.others loc hloc]
  by_cases hmem : loc ∈ ways <;> simp [hmem, hpaved]

theorem of_patched {child : Tree} (hchild : ∀ more, child more = new (name :: more))
    (hsome : (new [name]).isSome)
    (h : Patched ((child.shift (place ++ [name])).atop
      (.directories (ways ++ [place ++ [name]]))) c d) :
    Overlaid ways place new [name] c d := by
  constructor
  · intro n hn more
    obtain rfl := List.mem_singleton.1 hn
    have hloc := h (place ++ [n] ++ more)
    rw [Tree.atop, Tree.shift_append, hchild, Tree.directories] at hloc
    simp only [List.append_assoc, List.singleton_append] at hloc
    rw [hloc]
    cases more with
    | nil => simp [hsome, Option.or_of_isSome]
    | cons => simp [not_mem_ways hways]
  · intro loc hloc
    have hnot : ¬ place ++ [name] <+: loc := hloc name (by simp)
    have hne : loc ≠ place ++ [name] := by
      rintro rfl
      exact hnot (List.prefix_refl _)
    rw [h loc, Tree.atop, Tree.shift_of_not_below hnot, Tree.directories]
    by_cases hmem : loc ∈ ways <;> simp [hmem, hne]

/-- Where every name of the tree is among those, the whole tree is overlaid below the place. -/
theorem get?_below {names : List String} (h : Overlaid ways place new names c d)
    (hfull : ∀ n, n ∉ names → ∀ more, new (n :: more) = none) (n : String) (more : Location) :
    d.get? (place ++ n :: more) = (new (n :: more)).or (c.get? (place ++ n :: more)) := by
  by_cases hn : n ∈ names
  · exact h.chosen n hn more
  · have hnot : ∀ n' ∈ names, ¬ place ++ [n'] <+: place ++ n :: more := by
      intro n' hn'
      refine not_prefix_of_ne ?_
      rintro rfl
      exact hn hn'
    rw [h.others _ hnot, if_neg (by simp [not_mem_ways hways n more]), hfull n hn more]
    rfl

end Overlaid

theorem under_of_not_mem_names {d : Disk} {loc : Location} {name : String} (h : name ∉ d.names loc)
    (more : Location) : d.under loc (name :: more) = none := by
  by_contra hsome
  exact h (mem_names_of_below (Option.isSome_iff_ne_none.2 hsome))

/-- What no directory is, and so has nothing below it, is laid at a place by putting it there,
once the places on the way are directories. -/
theorem patched_of_leaf {ways : List Location} {source place : Location} {c c' d : Disk}
    (hsource : c.get? source ≠ some .directory) (hsome : (c.get? source).isSome)
    (hplace : c'.get? place ≠ some .directory) (hextends : c.Extends c')
    (hsame : ∀ loc, loc ∉ ways → c'.get? loc = c.get? loc)
    (hways : ∀ x ∈ ways, c'.get? x = some .directory ∨ x = place)
    (hput : d.get? place = c.get? source)
    (hothers : ∀ loc, loc ≠ place → d.get? loc = c'.get? loc) :
    Patched (((c.under source).shift place).atop (.directories ways)) c d := by
  intro loc
  by_cases hbelow : place <+: loc
  · obtain ⟨rest, rfl⟩ := hbelow
    rw [Tree.atop, Tree.shift_append, under]
    cases rest with
    | nil =>
      rw [List.append_nil, List.append_nil, hput, Option.or_assoc, Option.or_of_isSome hsome]
    | cons name rest =>
      have hne : place ++ name :: rest ≠ place := by simp
      have hnone : c'.get? (place ++ name :: rest) = none :=
        get?_append_of_ne hplace (List.cons_ne_nil _ _)
      have hold : c.get? (place ++ name :: rest) = none := by
        rw [Option.eq_none_iff_forall_ne_some]
        intro e he
        simp [hextends _ e he] at hnone
      have hway : place ++ name :: rest ∉ ways := by
        intro hmem
        rcases hways _ hmem with hdir | heq
        · simp [hnone] at hdir
        · exact hne heq
      rw [hothers _ hne, hnone, get?_append_of_ne hsource (List.cons_ne_nil _ _), hold,
        Tree.directories, if_neg hway]
      rfl
  · have hne : loc ≠ place := by
      rintro rfl
      exact hbelow (List.prefix_refl _)
    rw [hothers loc hne, Tree.atop, Tree.shift_of_not_below hbelow, Tree.directories]
    split
    · rename_i hmem
      rcases hways loc hmem with hdir | heq
      · simpa using hdir
      · exact absurd heq hne
    · rename_i hmem
      simpa using hsame loc hmem

/-- The places that are made directories before something is laid at a goal: stops of the route
that leads there, the goal among them, and all those that are no directories yet. None of them is
below the goal. -/
structure Paves (c : Disk) (route : List Location) (goal : Location) (ways : List Location) :
    Prop where
  onRoute : ∀ x ∈ ways, x ∈ route
  atGoal : goal ∈ ways
  paved : ∀ x ∈ route, x ∈ ways ∨ c.get? x = some .directory
  straight : ∀ x ∈ ways, ∀ name, ¬ goal ++ [name] <+: x

namespace Paves
variable {route ways : List Location} {goal : Location} {c d : Disk}

theorem patched (h : Paves c route goal ways) (hmade : Patched (.directories route) c d) :
    Patched (.directories ways) c d := by
  intro loc
  have hloc := hmade loc
  rw [Tree.directories] at hloc ⊢
  split
  · rename_i hmem
    rwa [if_pos (h.onRoute loc hmem)] at hloc
  · rename_i hmem
    split at hloc
    · rename_i hstop
      rw [hloc, (h.paved loc hstop).resolve_left hmem]
      rfl
    · exact hloc

theorem of_directories (hgoal : goal ∈ route)
    (h : ∀ x ∈ route, c.get? x = some .directory ∨ x = goal) : Paves c route goal [goal] where
  onRoute := by simpa using hgoal
  atGoal := List.mem_singleton_self goal
  paved x hx := (h x hx).symm.imp_left List.mem_singleton.2
  straight x hx name := by
    obtain rfl := List.mem_singleton.1 hx
    exact not_append_prefix (List.cons_ne_nil _ _)

/-- One name below places that are all directories, only the place of that name is to be made. -/
theorem below {here : Location} {target : Path} {names : List String} {name : String}
    (hnames : ∀ n ∈ names ++ [name], IsName n)
    (hpaved : ∀ x ∈ stops here (target.below names), c.get? x = some .directory) :
    Paves c (stops here (target.below (names ++ [name])))
      (Disk.goal here target ++ (names ++ [name]))
      [Disk.goal here target ++ (names ++ [name])] := by
  have hstops : stops here (target.below (names ++ [name])) =
      stops here (target.below names) ++ [Disk.goal here target ++ (names ++ [name])] := by
    rw [below_append, stops_div (hnames name (by simp)),
      goal_below fun n hn => hnames n (by simp [hn]), List.append_assoc]
  rw [hstops]
  refine .of_directories (by simp) fun x hx => ?_
  exact (List.mem_append.1 hx).imp (hpaved x) List.mem_singleton.1

theorem of_straight {here : Location} {p : Path} (hp : Straight here p) :
    Paves c (stops here p) (Disk.goal here p) (stops here p) where
  onRoute _ hx := hx
  atGoal := goal_mem_stops here p
  paved _ hx := .inl hx
  straight _ hx name := hp.not_prefix_goal hx name

end Paves

end Disk

variable {here : Location} {source target : Path} {c d : Disk}

/-- What copying a file does to a disk where its directory is there: the goal, where a file may be
written, holds the same file then, and nothing else changes. -/
theorem Access.copyFile_plain (hc : c.Plain) (hhere : c.get? here = some .directory)
    (hne : goal here source ≠ goal here target)
    (h : Access.copyFile source target here c = (.ok (), d)) :
    (∃ content mode, c.get? (goal here source) = some (.file content mode) ∧
        Whole content mode) ∧
      c.Writable (goal here target) ∧
      (∃ t, c.resolve here .makeFile target = .ok t) ∧
      d.get? (goal here target) = c.get? (goal here source) ∧
      ∀ loc, loc ≠ goal here target → d.get? loc = c.get? loc := by
  obtain ⟨loc, content, mode, dir, name, mode', c', hl, hsource, hopen, hwhole, rfl⟩ :=
    Access.exists_of_copyFile h
  obtain rfl : loc = goal here source := hc.loc_of_resolve (locate_eq_ok_iff.1 hl)
  obtain ⟨⟨t, ht, -⟩, hput, -⟩ := Access.openFile_eq_ok hopen
  obtain ⟨hopened, hdir, -⟩ := Access.openFile_arrives hhere hopen
  obtain ⟨hgoal, -⟩ := Access.openFile_plain hc hopen
  rw [hgoal] at hopened
  have hkept : c'.file? (goal here source) = some (content, mode) := by
    rw [file?_eq_some_iff, hput, get?_put_of_ne (hgoal ▸ hne), hsource]
  have hw := hwhole content mode hkept
  rw [hkept]
  refine ⟨⟨content, mode, hsource, hw⟩, hgoal ▸ Access.openFile_writable hopen, ⟨t, ht⟩, ?_, ?_⟩
  · rw [← hgoal, get?_put ⟨hdir, by rw [hgoal, hopened]; simp⟩, if_pos rfl, hsource,
      Mode.mended_of_sound hw.sound]
    rfl
  · intro loc hloc
    rw [get?_put_of_ne (hgoal ▸ hloc), hput, get?_put_of_ne (hgoal ▸ hloc)]

namespace Files

/-- What making a directory does: the places that its path goes through are directories then. -/
theorem ensureDir_patched (hc : c.Plain) (hhere : c.get? here = some .directory) {p : Path}
    (h : ensureDir p here c = (.ok (), d)) :
    d.Plain ∧ Patched (.directories (stops here p)) c d := by
  obtain ⟨hd, hsame⟩ := (ensureDir_confined fun _ hx => hx).of_eq h hc
  have hhere' := (ensureDir_extends p).of_eq h here _ hhere
  refine ⟨hd, fun loc => ?_⟩
  rw [Tree.directories]
  split
  · rename_i hloc
    by_cases htext : p.text.isEmpty
    · obtain rfl : p = ⟨""⟩ := congrArg Path.mk (String.isEmpty_iff.1 htext)
      obtain rfl : loc = here := by
        simpa [stops, stopsFrom, hops, origin, isAbsolute, Text.splitOn] using hloc
      simpa using hhere'
    · rw [ensureDir, mapError_eq_ok_iff] at h
      obtain ⟨goal', hl, hdir⟩ := isDirAt_iff.1 (Access.isDirAt_of_makeDirs hhere htext h)
      rw [show goal' = goal here p from hd.loc_of_resolve hl] at hdir
      rcases hd.directory_of_resolve hhere' hl loc hloc with hdir' | rfl
      · simpa using hdir'
      · simpa using hdir
  · rename_i hloc
    simpa using hsame loc hloc

theorem ensureParent_plain (hc : c.Plain) {p : Path} (h : ensureParent p here c = (.ok (), d)) :
    d.Plain ∧ ∀ loc, loc ∉ stops here p → d.get? loc = c.get? loc :=
  (ensureParent_confined fun _ hx => hx).of_eq h hc

/-- What copying a file does: it stands at the goal as the source did, and the places on the way are
directories. It could be read to its end, and a file could be written at the goal. -/
theorem copyFile_patched {ways : List Location} (hc : c.Plain)
    (hhere : c.get? here = some .directory)
    (hpaves : Paves c (stops here target) (goal here target) ways)
    (hapart : goal here source ∉ ways) (h : copyFile source target here c = (.ok (), d)) :
    d.Plain ∧ ((∃ content mode, c.get? (goal here source) = some (.file content mode) ∧
        Access.Whole content mode) ∧ c.Writable (goal here target)) ∧
      Patched (((c.under (goal here source)).shift (goal here target)).atop (.directories ways))
        c d := by
  have hd := ((copyFile_confined source fun _ hx => hx).of_eq h hc).1
  obtain ⟨⟨⟩, c', hparent, h⟩ := bind_eq_ok_iff.1 h
  obtain ⟨hc', hsame⟩ := ensureParent_plain hc hparent
  have hextends : c.Extends c' := (ensureParent_extends target).of_eq hparent
  have hhere' := hextends here _ hhere
  have hkept : ∀ loc, loc ∉ ways → c'.get? loc = c.get? loc := by
    intro loc hloc
    by_cases hstop : loc ∈ stops here target
    · have hdir := (hpaves.paved loc hstop).resolve_left hloc
      rw [hdir, hextends loc _ hdir]
    · exact hsame loc hstop
  have hne : goal here source ≠ goal here target := by
    intro heq
    exact hapart (heq ▸ hpaves.atGoal)
  rw [mapError_eq_ok_iff] at h
  obtain ⟨⟨content, mode, hfile, hwhole⟩, hwritable, ⟨t, ht⟩, hput, hothers⟩ :=
    Access.copyFile_plain hc' hhere' hne h
  rw [hkept _ hapart] at hfile hput
  refine ⟨hd, ⟨⟨content, mode, hfile, hwhole⟩, hextends.writable hwritable⟩,
    patched_of_leaf (by simp [hfile]) (by simp [hfile]) hwritable.ne_directory hextends hkept ?_
      hput hothers⟩
  intro x hx
  exact hc'.directory_of_resolve hhere' ht x (hpaves.onRoute x hx)

/-- The computation lays what stands under a name in one place under the same name in another
place. The tree `new` that it takes from stays as it is, and so do the paved places, which are
directories. -/
def Lays {α : Type} (here : Location) (paved ways : List Location) (source place : Location)
    (new : Tree) (name : String) (e : Files α) : Prop :=
  ∀ c x d, e here c = (.ok x, d) → c.Plain → (∀ x ∈ paved, c.get? x = some .directory) →
    c.under source = new →
    d.Plain ∧ (∀ x ∈ paved, d.get? x = some .directory) ∧ d.under source = new ∧
      Patched (((c.under (source ++ [name])).shift (place ++ [name])).atop
        (.directories (ways ++ [place ++ [name]]))) c d

theorem Lays.of_patched {α : Type} {paved ways : List Location} {source place : Location}
    {new : Tree} {name : String} {e : Files α} (hgrows : Moves Grows here e)
    (hbeside : Beside source place) (hways : ∀ x ∈ ways, ¬ source <+: x)
    (hpatched : ∀ c x d, e here c = (.ok x, d) → c.Plain →
      (∀ x ∈ paved, c.get? x = some .directory) →
      d.Plain ∧ Patched (((c.under (source ++ [name])).shift (place ++ [name])).atop
        (.directories (ways ++ [place ++ [name]]))) c d) :
    Lays here paved ways source place new name e := by
  intro c x d h hc hpaved hsource
  obtain ⟨hd, hlaid⟩ := hpatched c x d h hc hpaved
  have hbeside' : Beside source (place ++ [name]) := hbeside.right [name]
  have hoff : ∀ x ∈ ways ++ [place ++ [name]], ¬ source <+: x := by
    intro x hx
    rcases List.mem_append.1 hx with hx | hx
    · exact hways x hx
    · obtain rfl := List.mem_singleton.1 hx
      exact hbeside'.1
  refine ⟨hd, ?_, (hlaid.under_eq hbeside' hoff).trans hsource, hlaid⟩
  intro x hx
  exact (hgrows.of_eq h).directory (hpaved x hx)

theorem Lays.overlaid {α : Type} {paved ways : List Location} {source place : Location} {new : Tree}
    {name : String} {e : Files α} {x : α} (h : Lays here paved ways source place new name e)
    (hways : ∀ x ∈ ways, ∀ name, ¬ place ++ [name] <+: x) (hnew : (new [name]).isSome)
    (hc : c.Plain) (hpaved : ∀ x ∈ paved, c.get? x = some .directory)
    (hsource : c.under source = new) (he : e here c = (.ok x, d)) :
    d.Plain ∧ (∀ x ∈ paved, d.get? x = some .directory) ∧ d.under source = new ∧
      Overlaid ways place new [name] c d := by
  obtain ⟨hd, hpaved', hsource', hpatched⟩ := h c x d he hc hpaved hsource
  refine ⟨hd, hpaved', hsource', .of_patched hways (fun rest => ?_) hnew hpatched⟩
  rw [← hsource]
  simp [under]

/-- Copying name by name overlays the entries under the names, where each copy lays its own. -/
theorem sumNames_overlaid {paved ways : List Location} {source place : Location} {new : Tree}
    {f : String → Files Nat} {names : List String} {n : Nat}
    (hways : ∀ x ∈ ways, ∀ name, ¬ place ++ [name] <+: x)
    (hnew : ∀ name ∈ names, (new [name]).isSome)
    (hlays : ∀ name ∈ names, Lays here paved ways source place new name (f name))
    (hc : c.Plain) (hpaved : ∀ x ∈ paved, c.get? x = some .directory)
    (hsource : c.under source = new) (h : sumNames f names here c = (.ok n, d)) :
    d.Plain ∧ Overlaid ways place new names c d := by
  induction names generalizing c n with
  | nil =>
    obtain ⟨-, rfl⟩ := Prod.mk.inj h
    exact ⟨hc, .nil c⟩
  | cons name rest ih =>
    obtain ⟨hname, hrest⟩ := List.forall_mem_cons.1 hlays
    obtain ⟨hsome, hsomes⟩ := List.forall_mem_cons.1 hnew
    obtain ⟨k, c₁, hfirst, h⟩ := bind_eq_ok_iff.1 h
    obtain ⟨more, c₂, hmore, h⟩ := bind_eq_ok_iff.1 h
    obtain ⟨-, rfl⟩ := Prod.mk.inj h
    obtain ⟨hc₁, hpaved₁, hsource₁, hone⟩ := hname.overlaid hways hsome hc hpaved hsource hfirst
    obtain ⟨hd, hothers⟩ := ih hsomes hrest hc₁ hpaved₁ hsource₁ hmore
    exact ⟨hd, hone.cons hways hothers⟩

/-- A tree is laid at a place once its top is a directory there and its entries are overlaid. -/
theorem patched_of_overlaid {ways : List Location} {source place : Location} {c c' d : Disk}
    (hways : ∀ x ∈ ways, ∀ name, ¬ place ++ [name] <+: x) (hplace : place ∈ ways)
    (hdir : c.get? source = some .directory) (hmade : Patched (.directories ways) c c')
    (h : Overlaid ways place (c.under source) (c.names source) c' d) :
    Patched (((c.under source).shift place).atop (.directories ways)) c d := by
  intro loc
  have hmade := hmade loc
  rw [Tree.directories] at hmade
  by_cases hbelow : place <+: loc
  · obtain ⟨rest, rfl⟩ := hbelow
    rw [Tree.atop, Tree.shift_append, Tree.directories]
    cases rest with
    | nil =>
      rw [List.append_nil] at hmade ⊢
      rw [h.others place fun name _ => by simpa using fun hp => absurd hp.length_le (by simp)]
      simp [under, hdir, hmade, hplace]
    | cons name rest =>
      rw [if_neg (Overlaid.not_mem_ways hways name rest)] at hmade ⊢
      rw [h.get?_below hways (fun _ hn => under_of_not_mem_names hn), hmade]
      simp
  · rw [Tree.atop, Tree.shift_of_not_below hbelow, Tree.directories,
      h.others loc fun name _ hp => hbelow ((List.prefix_append _ _).trans hp), hmade]
    by_cases hmem : loc ∈ ways <;> simp [hmem]

section Trees
variable {ways : List Location} (hbeside : Beside (goal here source) (goal here target))
include hbeside

/-- What copying a tree does: the tree is laid at the goal, and the places on the way are
directories. Behind the first step nothing but goals is left to be made. -/
theorem copyBelow_patched (hsteps : source.steps ≠ []) (fuel : Nat) (above : Trail)
    {names : List String} {n : Nat} (hnames : ∀ name ∈ names, IsName name) (hc : c.Plain)
    (hhere : c.get? here = some .directory)
    (hpaves : Paves c (stops here (target.below names)) (goal here target ++ names) ways)
    (hways : ∀ x ∈ ways, ¬ goal here source <+: x)
    (h : copyBelow source target fuel above (source.below names) here c = (.ok n, d)) :
    d.Plain ∧
      Patched (((c.under (goal here source ++ names)).shift (goal here target ++ names)).atop
        (.directories ways)) c d := by
  induction fuel generalizing above names ways n c d with
  | zero => simp [copyBelow] at h
  | succ fuel ih =>
    have hgoal : goal here (target.join (ofNames names)) = goal here target ++ names :=
      goal_join_ofNames hnames
    have hstops : stops here (target.join (ofNames names)) = stops here (target.below names) :=
      stops_join_ofNames hnames
    have hbelow : ∀ x ∈ ways, ¬ goal here source ++ names <+: x := by
      intro x hx hbelow
      exact hways x hx ((List.prefix_append _ _).trans hbelow)
    obtain ⟨hdir, c', trail, hensure, h⟩ | ⟨-, h, -⟩ := copyBelow_cases hsteps hnames hc h
    · obtain ⟨hc', hroute⟩ := ensureDir_patched hc hhere hensure
      rw [hstops] at hroute
      have hmade := hpaves.patched hroute
      have hpaved : ∀ x ∈ here :: stops here (target.below names), c'.get? x = some .directory := by
        refine List.forall_mem_cons.2 ⟨(ensureDir_extends _).of_eq hensure here _ hhere, ?_⟩
        intro x hx
        rw [hroute, Tree.directories, if_pos hx]
        rfl
      -- nothing was made in the source, so its entries are still what they were at first
      have hsource :
          c'.under (goal here source ++ names) = c.under (goal here source ++ names) := by
        funext rest
        have hfree : goal here source ++ names ++ rest ∉ ways := fun hmem =>
          hbelow _ hmem (List.prefix_append _ _)
        rw [under, hmade, Tree.directories, if_neg hfree]
        rfl
      have hlays : ∀ name ∈ c.names (goal here source ++ names),
          Lays here (here :: stops here (target.below names)) [] (goal here source ++ names)
            (goal here target ++ names) (c.under (goal here source ++ names)) name
            (copyBelow source target fuel trail (source.below (names ++ [name]))) := by
        intro name hname
        have hnames' := isName_of_mem_concat hnames (hc.isName_of_mem_names hname)
        refine .of_patched (copyBelow_grows _ _ _ _ _) (hbeside.append names names) (by simp) ?_
        intro c₁ k c₂ h₁ hc₁ hpaved₁
        obtain ⟨hhere₁, hpaved₁⟩ := List.forall_mem_cons.1 hpaved₁
        have hoff : ∀ x ∈ [goal here target ++ (names ++ [name])], ¬ goal here source <+: x := by
          simpa using (hbeside.right (names ++ [name])).1
        have hpatched := ih _ hnames' hc₁ hhere₁ (.below hnames' hpaved₁) hoff h₁
        rwa [← List.append_assoc, ← List.append_assoc] at hpatched
      obtain ⟨hd, hlaid⟩ := sumNames_overlaid (by simp)
        (fun name hname => (c.mem_names_iff _ name).1 hname) hlays hc' hpaved hsource h
      have hdone := hlaid.of_paved fun x hx =>
        hpaved x (List.mem_cons_of_mem _ (hpaves.onRoute x hx))
      exact ⟨hd, patched_of_overlaid hpaves.straight hpaves.atGoal hdir hmade hdone⟩
    · have hoff : goal here (source.below names) ∉ ways := by
        rw [goal_below hnames]
        exact fun hmem => hbelow _ hmem (List.prefix_refl _)
      rw [← hstops, ← hgoal] at hpaves
      obtain ⟨hd, -, hfile⟩ := copyFile_patched hc hhere hpaves hoff h
      rw [hgoal, goal_below hnames] at hfile
      exact ⟨hd, hfile⟩

theorem copyTree_patched {n : Nat} (hc : c.Plain) (hhere : c.get? here = some .directory)
    (hpaves : Paves c (stops here target) (goal here target) ways)
    (hways : ∀ x ∈ ways, ¬ goal here source <+: x)
    (h : copyTree source target here c = (.ok n, d)) :
    d.Plain ∧ Patched (((c.under (goal here source)).shift (goal here target)).atop
      (.directories ways)) c d := by
  obtain ⟨hdir, h⟩ := copyTree_eq_ok h
  have hnone : ∀ name ∈ [], IsName name := by simp
  rw [← List.append_nil (goal here target)] at hpaves
  have htree := copyBelow_patched hbeside (steps_ne_nil_of_isDirAt hdir) maxDepth [] hnone hc hhere
    hpaves hways h
  simpa using htree

theorem copyTo_patched {n : Nat} (hc : c.Plain) (hhere : c.get? here = some .directory)
    (hpaves : Paves c (stops here target) (goal here target) ways)
    (hways : ∀ x ∈ ways, ¬ goal here source <+: x)
    (h : copyTo source target here c = (.ok n, d)) :
    d.Plain ∧ Patched (((c.under (goal here source)).shift (goal here target)).atop
      (.directories ways)) c d := by
  rcases copyTo_eq_ok h with ⟨-, h⟩ | ⟨-, -, h, -⟩
  · exact copyTree_patched hbeside hc hhere hpaves hways h
  · have hoff : goal here source ∉ ways := fun hmem => hways _ hmem (List.prefix_refl _)
    obtain ⟨hd, -, hfile⟩ := copyFile_patched hc hhere hpaves hoff h
    exact ⟨hd, hfile⟩

end Trees

theorem copyTo_lays {base dir target : Path} {name : String} {new : Tree} (hname : IsName name)
    (hgoal : goal here target = goal here (dir / name))
    (hstops : stops here target = stops here (dir / name))
    (hapart : ∀ x, Around here dir x → ¬ goal here base <+: x) (hstraight : Straight here dir) :
    Lays here [here] (stops here dir) (goal here base) (goal here dir) new name
      (copyTo (base / name) target) := by
  have hbeside : Beside (goal here base) (goal here dir) :=
    ⟨hapart _ (.inl (goal_mem_stops here dir)),
      fun hbelow => hapart _ (.inr hbelow) (List.prefix_refl _)⟩
  have hways : ∀ x ∈ stops here target, ¬ goal here (base / name) <+: x := by
    intro x hx hbelow
    rw [hstops] at hx
    rw [goal_div hname] at hbelow
    exact hapart x (around_of_mem_stops_div hname hx) ((List.prefix_append _ _).trans hbelow)
  refine .of_patched (copyTo_grows _ _) hbeside (fun x hx => hapart x (.inl hx)) ?_
  intro c n d h hc hhere
  have hbeside' : Beside (goal here (base / name)) (goal here target) := by
    rw [hgoal, goal_div hname, goal_div hname]
    exact hbeside.append [name] [name]
  have hpaves : Paves c (stops here target) (goal here target) (stops here target) := by
    rw [hgoal, hstops]
    exact .of_straight (hstraight.div hname)
  have hpatched := copyTo_patched hbeside' hc (hhere here (by simp)) hpaves hways h
  rwa [hgoal, hstops, goal_div hname, goal_div hname, stops_div hname] at hpatched

theorem copyInto_lays {base dir : Path} {name : String} {new : Tree} (hname : IsName name)
    (hapart : ∀ x, Around here dir x → ¬ goal here base <+: x) (hstraight : Straight here dir) :
    Lays here [here] (stops here dir) (goal here base) (goal here dir) new name
      (copyInto (base / name) dir) := by
  intro c q d h
  obtain ⟨name', n, hfile, -, h⟩ := copyInto_eq_ok h
  obtain rfl : name = name' := Option.some.inj ((fileName?_div hname).symm.trans hfile)
  exact copyTo_lays hname rfl rfl hapart hstraight c n d h

end Files

end GemStaging
