import GemStaging.Proofs.Disk.Growth

/-!
Disks without links. On such a disk a path says by its names alone where it leads (`Disk.goal`)
and which places it goes through (`Disk.stops`): a walk that succeeds ends at the goal
(`Plain.loc_of_resolve`), every stop before it is a directory (`Plain.directory_of_resolve`), and
disks that agree at the stops are walked alike (`Plain.resolve_congr`).
-/

namespace GemStaging.Disk

open GemStaging.Path

/-- No entry is a link, and every entry has a name. -/
structure Plain (d : Disk) : Prop where
  linkless : ∀ loc target, d.get? loc ≠ some (.link target)
  named : ∀ loc name, (d.get? (loc ++ [name])).isSome → IsName name

def step (here : Location) (hop : String) : Location :=
  if hop = "." then here else if hop = ".." then here.dropLast else here ++ [hop]

/-- The places that some steps go through, the first and the last one included. -/
def stopsFrom : Location → List String → List Location
  | here, [] => [here]
  | here, hop :: rest => here :: stopsFrom (step here hop) rest

/-- Where a path leads by its names. -/
def goal (here : Location) (p : Path) : Location := (hops p).foldl step (origin p here)

/-- The places that a path goes through by its names. -/
def stops (here : Location) (p : Path) : List Location := stopsFrom (origin p here) (hops p)

section Lexical
variable {here loc : Location} {p q : Path} {name : String} {names : List String}

theorem step_name (h : IsName name) : step loc name = loc ++ [name] := by
  rw [step, if_neg h.ne_dot, if_neg h.ne_up]

theorem mem_stopsFrom_self (hops : List String) : loc ∈ stopsFrom loc hops := by
  cases hops <;> simp [stopsFrom]

theorem mem_stopsFrom_append_iff {hops more : List String} {x : Location} :
    x ∈ stopsFrom loc (hops ++ more) ↔
      x ∈ stopsFrom loc hops ∨ x ∈ stopsFrom (hops.foldl step loc) more := by
  induction hops generalizing loc with
  | nil =>
    refine ⟨.inr, ?_⟩
    rintro (hx | hx)
    · rw [List.mem_singleton.1 hx]
      exact mem_stopsFrom_self more
    · exact hx
  | cons hop rest ih => simp [stopsFrom, ih, or_assoc]

theorem stopsFrom_concat (hops : List String) (hop : String) :
    stopsFrom loc (hops ++ [hop]) = stopsFrom loc hops ++ [step (hops.foldl step loc) hop] := by
  induction hops generalizing loc with
  | nil => rfl
  | cons first rest ih => simp [stopsFrom, ih]

theorem foldl_step_names (loc : Location) (h : ∀ name ∈ names, IsName name) :
    names.foldl step loc = loc ++ names := by
  induction names generalizing loc with
  | nil => simp
  | cons name rest ih =>
    obtain ⟨hname, hrest⟩ := List.forall_mem_cons.1 h
    rw [List.foldl_cons, step_name hname, ih _ hrest, List.append_assoc, List.singleton_append]

theorem foldl_step_mem_stopsFrom (hops : List String) :
    hops.foldl step loc ∈ stopsFrom loc hops := by
  induction hops generalizing loc with
  | nil => exact List.mem_singleton_self loc
  | cons hop rest ih => exact List.mem_cons_of_mem _ ih

theorem goal_mem_stops (here : Location) (p : Path) : goal here p ∈ stops here p :=
  foldl_step_mem_stopsFrom _

theorem goal_div (h : IsName name) : goal here (p / name) = goal here p ++ [name] := by
  rw [goal, hops_div h, origin_div h, List.foldl_append, List.foldl_cons, List.foldl_nil,
    step_name h, goal]

theorem stops_div (h : IsName name) :
    stops here (p / name) = stops here p ++ [goal here p ++ [name]] := by
  rw [stops, hops_div h, origin_div h, stopsFrom_concat, step_name h, stops, goal]

theorem forall_mem_stops_div {region : Location → Prop} (h : IsName name) :
    (∀ x ∈ stops here (p / name), region x) ↔
      (∀ x ∈ stops here p, region x) ∧ region (goal here p ++ [name]) := by
  rw [stops_div h, List.forall_mem_append, List.forall_mem_singleton]

theorem goal_below (h : ∀ name ∈ names, IsName name) :
    goal here (p.below names) = goal here p ++ names := by
  induction names generalizing p with
  | nil => simp
  | cons name rest ih =>
    obtain ⟨hname, hrest⟩ := List.forall_mem_cons.1 h
    have htail : goal here ((p / name).below rest) = goal here (p / name) ++ rest := ih hrest
    rw [goal_div hname] at htail
    simpa [below] using htail

theorem stops_subset_below (h : ∀ name ∈ names, IsName name) :
    stops here p ⊆ stops here (p.below names) := by
  intro x hx
  rw [stops, origin_below h, hops_below h, mem_stopsFrom_append_iff]
  exact .inl hx

theorem mem_stops_below (h : ∀ name ∈ names, IsName name) {x : Location}
    (hx : x ∈ stops here (p.below names)) :
    x ∈ stops here p ∨ goal here p <+: x ∧ x <+: goal here p ++ names := by
  induction names generalizing p with
  | nil => exact .inl hx
  | cons name rest ih =>
    obtain ⟨hname, hrest⟩ := List.forall_mem_cons.1 h
    have hsplit : goal here p ++ name :: rest = goal here p ++ [name] ++ rest := by simp
    rw [hsplit]
    rcases ih hrest (hx : x ∈ stops here ((p / name).below rest)) with hx | ⟨hx, hx'⟩
    · rw [stops_div hname, List.mem_append] at hx
      refine hx.imp_right fun hx => ?_
      rw [List.mem_singleton.1 hx]
      exact ⟨List.prefix_append _ _, List.prefix_append _ _⟩
    · rw [goal_div hname] at hx hx'
      exact .inr ⟨(List.prefix_append _ _).trans hx, hx'⟩

theorem goal_join_ofNames (h : ∀ name ∈ names, IsName name) :
    goal here (p.join (ofNames names)) = goal here p ++ names := by
  rw [← goal_below h, goal, hops_join (isAbsolute_ofNames h), hops_ofNames h,
    origin_join (isAbsolute_ofNames h), goal, hops_below h, origin_below h]

theorem stops_join_ofNames (h : ∀ name ∈ names, IsName name) :
    stops here (p.join (ofNames names)) = stops here (p.below names) := by
  rw [stops, hops_join (isAbsolute_ofNames h), hops_ofNames h, origin_join (isAbsolute_ofNames h),
    stops, hops_below h, origin_below h]

theorem mem_stops_of_begins (h : Begins q p) {x : Location} (hx : x ∈ stops here q) :
    x ∈ stops here p := by
  obtain ⟨more, hhops⟩ := h.hops
  have horigin : origin q here = origin p here := by
    rw [origin, h.isAbsolute, origin]
  rw [stops, hhops, ← horigin]
  exact mem_stopsFrom_append_iff.2 (.inl hx)

theorem mem_stops_of_parent? (h : p.parent? = some q) {x : Location} (hx : x ∈ stops here q) :
    x ∈ stops here p :=
  mem_stops_of_begins (begins_of_parent? h) hx

end Lexical

section Walking
variable {c d : Disk} {purpose : Purpose} {slash : Bool} {onLink onLink' : OnLink} {here : Location}
variable {p : Path} {t : Target}

theorem Enters.step_eq {hop : String} {rest : List String} (h : Enters purpose slash hop rest) :
    step here hop = here ++ [hop] := by
  rw [step, if_neg h.notDot, if_neg h.notUp]

theorem Plain.loc_of_walkHops (hd : d.Plain) {hops : List String}
    (h : walkHops d purpose slash onLink here hops = .ok t) : t.loc = hops.foldl step here := by
  rw [walkHops_eq_ok_iff] at h
  induction h with
  | arrived here => rfl
  | dot _ ih => exact ih
  | up _ ih => exact ih
  | free henters _ => exact henters.step_eq.symm
  | directory henters _ _ ih => rwa [List.foldl_cons, henters.step_eq]
  | file henters _ _ => exact henters.step_eq.symm
  | kept _ htarget _ => exact absurd htarget (hd.linkless _ _)
  | followed _ htarget _ _ => exact absurd htarget (hd.linkless _ _)

theorem Plain.directory_of_walkHops (hd : d.Plain) {hops : List String}
    (hhere : d.get? here = some .directory)
    (h : walkHops d purpose slash onLink here hops = .ok t) :
    ∀ x ∈ stopsFrom here hops, d.get? x = some .directory ∨ x = t.loc := by
  rw [walkHops_eq_ok_iff] at h
  induction h with
  | arrived here => simpa [stopsFrom] using .inl hhere
  | dot _ ih => exact List.forall_mem_cons.2 ⟨.inl hhere, ih hhere⟩
  | up _ ih => exact List.forall_mem_cons.2 ⟨.inl hhere, ih (get?_dropLast hhere)⟩
  | free henters _ => simp [stopsFrom, henters.step_eq, hhere, Target.loc]
  | directory henters hdir _ ih =>
    rw [stopsFrom, henters.step_eq]
    exact List.forall_mem_cons.2 ⟨.inl hhere, ih hdir⟩
  | file henters _ _ => simp [stopsFrom, henters.step_eq, hhere, Target.loc]
  | kept _ htarget _ => exact absurd htarget (hd.linkless _ _)
  | followed _ htarget _ _ => exact absurd htarget (hd.linkless _ _)

theorem Plain.walkHops_congr (hc : c.Plain) {hops : List String}
    (h : ∀ x ∈ stopsFrom here hops, c.get? x = d.get? x) :
    walkHops c purpose slash onLink here hops = walkHops d purpose slash onLink' here hops := by
  induction hops generalizing here with
  | nil => rfl
  | cons hop rest ih =>
    obtain ⟨-, hrest⟩ := List.forall_mem_cons.1 h
    have hstep := ih hrest
    simp only [walkHops]
    by_cases hdot : hop = "."
    · simpa [step, hdot] using hstep
    by_cases hup : hop = ".."
    · simpa [step, hup] using hstep
    simp only [step, hdot, hup, if_false] at hstep hrest ⊢
    have hhop : c.get? (here ++ [hop]) = d.get? (here ++ [hop]) := hrest _ (mem_stopsFrom_self _)
    split
    · rfl
    split
    · rfl
    rw [← hhop]
    split
    · rfl
    · exact hstep
    · rfl
    · rename_i hl
      exact absurd hl (hc.linkless _ _)

theorem Plain.resolve_eq (hd : d.Plain) (h : d.resolve here purpose p = .ok t) :
    walkHops d purpose (endsInSlash p) (fun _ _ _ _ => .error .tooManyLinks) (origin p here)
      (hops p) = .ok t := by
  obtain ⟨-, hwalk⟩ := resolve_eq_ok_iff.1 h
  rw [show maxLinks = 39 + 1 from rfl, walk] at hwalk
  rwa [hd.walkHops_congr fun _ _ => rfl] at hwalk

theorem Plain.loc_of_resolve (hd : d.Plain) (h : d.resolve here purpose p = .ok t) :
    t.loc = goal here p :=
  hd.loc_of_walkHops (hd.resolve_eq h)

theorem Plain.directory_of_resolve (hd : d.Plain) (hhere : d.get? here = some .directory)
    (h : d.resolve here purpose p = .ok t) :
    ∀ x ∈ stops here p, d.get? x = some .directory ∨ x = goal here p := by
  have horigin : d.get? (origin p here) = some .directory := (directories d purpose).origin p hhere
  rw [← hd.loc_of_resolve h]
  exact hd.directory_of_walkHops horigin (hd.resolve_eq h)

theorem Plain.resolve_congr (hc : c.Plain) (h : ∀ x ∈ stops here p, c.get? x = d.get? x) :
    c.resolve here purpose p = d.resolve here purpose p := by
  rw [resolve, resolve]
  split
  · rfl
  split
  · rfl
  split
  · rfl
  rw [show maxLinks = 39 + 1 from rfl, walk, walk]
  exact hc.walkHops_congr h

theorem Plain.mem_hops_of_walkHops (hd : d.Plain) {hops : List String} {dir : Location}
    {name : String}
    (h : walkHops d purpose slash onLink here hops = .ok (.free dir name)) :
    name ∈ hops ∧ name ≠ "." ∧ name ≠ ".." := by
  generalize hfree : Target.free dir name = t at h
  rw [walkHops_eq_ok_iff] at h
  induction h with
  | dot _ ih => exact (ih hfree).imp_left (List.mem_cons_of_mem _)
  | up _ ih => exact (ih hfree).imp_left (List.mem_cons_of_mem _)
  | directory _ _ _ ih => exact (ih hfree).imp_left (List.mem_cons_of_mem _)
  | free henters _ =>
    obtain ⟨-, rfl⟩ := Target.free.inj hfree
    exact ⟨List.mem_cons_self, henters.notDot, henters.notUp⟩
  | arrived => cases hfree
  | file => cases hfree
  | kept => cases hfree
  | followed _ htarget _ _ => exact absurd htarget (hd.linkless _ _)

theorem isName_of_mem_hops {name : String} (h : name ∈ hops p) (hdot : name ≠ ".")
    (hup : name ≠ "..") : IsName name := by
  obtain ⟨piece, hpiece, rfl⟩ := List.mem_map.1 h
  obtain ⟨hmem, hempty⟩ := List.mem_filter.1 hpiece
  refine ⟨?_, by simpa using hempty, ?_, ?_⟩
  · simpa using Text.not_mem_of_mem_splitOn hmem
  · intro hcs
    exact hdot (String.toList_inj.1 hcs)
  · intro hcs
    exact hup (String.toList_inj.1 hcs)

theorem Plain.isName_of_resolve (hd : d.Plain) {dir : Location} {name : String}
    (h : d.resolve here purpose p = .ok (.free dir name)) : IsName name := by
  obtain ⟨hmem, hdot, hup⟩ := hd.mem_hops_of_walkHops (hd.resolve_eq h)
  exact isName_of_mem_hops hmem hdot hup

end Walking

theorem Plain.put {d : Disk} (hd : d.Plain) {dir : Location} {name : String} {e : Entry}
    (hname : IsName name) (he : ∀ target, e ≠ .link target) : (d.put dir name e).Plain := by
  by_cases ha : d.admits dir name e
  · constructor
    · intro loc target
      rw [get?_put ha]
      split
      · simpa using he target
      · exact hd.linkless loc target
    · intro loc name' h
      by_cases hk : loc ++ [name'] = dir ++ [name]
      · obtain ⟨-, hlast⟩ := List.append_inj' hk rfl
        rw [List.singleton_inj.1 hlast]
        exact hname
      · rw [get?_put ha, if_neg hk] at h
        exact hd.named loc name' h
  · simpa [Disk.put, ha] using hd

theorem Plain.remove {d : Disk} (hd : d.Plain) {loc : Location} (hloc : loc ≠ []) :
    (d.remove loc).Plain := by
  have hsame {k : Location} (hk : ((d.remove loc).get? k).isSome) :
      (d.remove loc).get? k = d.get? k := by
    rw [get?_remove hloc] at hk ⊢
    split at hk
    · cases hk
    · rename_i hfree
      exact if_neg hfree
  constructor
  · intro k target hk
    exact hd.linkless k target ((hsame (by rw [hk]; rfl)).symm.trans hk)
  · intro k name hk
    exact hd.named k name (hsame hk ▸ hk)

theorem plain_onlyRoot : Disk.onlyRoot.Plain := by
  have hroot (loc : Location) (h : loc ≠ []) : Disk.onlyRoot.get? loc = none := by
    simp [get?, Disk.onlyRoot, Table.get?_insert_of_ne _ _ h]
  constructor
  · intro loc target h
    by_cases hloc : loc = []
    · simp [hloc] at h
    · simp [hroot loc hloc] at h
  · intro loc name h
    simp [hroot (loc ++ [name]) (by simp)] at h

/-- A disk with some entries, each under a name in a directory that is there by then. -/
def diskOf (entries : List (Location × String × Entry)) : Disk :=
  entries.foldl (fun d e => d.put e.1 e.2.1 e.2.2) .onlyRoot

theorem mem_of_get?_diskOf {entries : List (Location × String × Entry)} {loc : Location} {e : Entry}
    (h : (diskOf entries).get? loc = some e) :
    loc = [] ∨ ∃ dir name, (dir, name, e) ∈ entries ∧ loc = dir ++ [name] := by
  induction entries using List.reverseRecOn with
  | nil =>
    by_cases hloc : loc = []
    · exact .inl hloc
    · simp [diskOf, get?, onlyRoot, Table.get?_insert_of_ne _ _ hloc] at h
  | append_singleton entries last ih =>
    have hearlier (h : (diskOf entries).get? loc = some e) :
        loc = [] ∨ ∃ dir name, (dir, name, e) ∈ entries ++ [last] ∧ loc = dir ++ [name] := by
      rcases ih h with hloc | ⟨dir, name, hmem, hloc⟩
      · exact .inl hloc
      · exact .inr ⟨dir, name, List.mem_append_left _ hmem, hloc⟩
    obtain ⟨dir, name, e'⟩ := last
    rw [diskOf, List.foldl_append, ← diskOf] at h
    change ((diskOf entries).put dir name e').get? loc = some e at h
    by_cases ha : (diskOf entries).admits dir name e'
    · rw [get?_put ha] at h
      split at h
      · rename_i hloc
        cases h
        exact .inr ⟨dir, name, by simp, hloc⟩
      · exact hearlier h
    · rw [put, dif_neg ha] at h
      exact hearlier h

theorem plain_diskOf {entries : List (Location × String × Entry)}
    (h : ∀ e ∈ entries, IsName e.2.1 ∧ (e.2.2 matches .link _) = false) :
    (diskOf entries).Plain := by
  constructor
  · intro loc target hlink
    rcases mem_of_get?_diskOf hlink with rfl | ⟨dir, name, hmem, -⟩
    · simp at hlink
    · simpa using (h _ hmem).2
  · intro loc name hsome
    obtain ⟨e, he⟩ := Option.isSome_iff_exists.1 hsome
    rcases mem_of_get?_diskOf he with hroot | ⟨dir, last, hmem, hloc⟩
    · simp at hroot
    · obtain ⟨-, rfl⟩ := List.append_singleton_inj.1 hloc
      exact (h _ hmem).1

theorem Plain.isName_of_mem {d : Disk} (hd : d.Plain) {loc : Location} (h : (d.get? loc).isSome) :
    ∀ name ∈ loc, IsName name := by
  induction loc using List.reverseRecOn with
  | nil => simp
  | append_singleton dir last ih =>
    have hdir : (d.get? dir).isSome := by rw [d.get?_parent h]; rfl
    exact isName_of_mem_concat (ih hdir) (hd.named dir last h)

theorem Plain.isName_of_mem_names {d : Disk} (hd : d.Plain) {loc : Location} {name : String}
    (h : name ∈ d.names loc) : IsName name :=
  hd.named loc name ((d.mem_names_iff loc name).1 h)

theorem Plain.isName_of_mem_namesAt {d : Disk} (hd : d.Plain) {here : Location} {p : Path}
    {name : String} (h : name ∈ d.namesAt here p) : IsName name := by
  obtain ⟨loc, -, hsome⟩ := mem_namesAt_iff.1 h
  exact hd.named loc name hsome

end GemStaging.Disk
