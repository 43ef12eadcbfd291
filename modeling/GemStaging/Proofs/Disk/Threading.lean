import GemStaging.Proofs.Disk.Growth
import GemStaging.Proofs.Path.Parent

/-!
Ways through directories. A walk that goes on behind some hops has come through directories and
links that lead to such (`Disk.Threads`), and what follows is walked from where they lead, with the
links that are left (`Threads.walk_append`, `exists_threads_of_walk_append`). With fewer links left
a walk ends as before or is refused for their number (`walk_fewer`).
-/

namespace GemStaging.Disk

open GemStaging.Path

/-- The hops lead through directories from one place to another; so many links may be followed
before, and so many after. -/
inductive Threads (d : Disk) : Nat → Location → List String → Nat → Location → Prop where
  | arrived (links : Nat) (loc : Location) : Threads d links loc [] links loc
  | dot {links left : Nat} {loc goal : Location} {hops : List String} :
      Threads d links loc hops left goal → Threads d links loc ("." :: hops) left goal
  | up {links left : Nat} {loc goal : Location} {hops : List String} :
      Threads d links loc.dropLast hops left goal → Threads d links loc (".." :: hops) left goal
  | directory {links left : Nat} {loc goal : Location} {hop : String} {hops : List String} :
      hop ≠ "." → hop ≠ ".." → nameFits hop → d.get? (loc ++ [hop]) = some .directory →
      Threads d links (loc ++ [hop]) hops left goal → Threads d links loc (hop :: hops) left goal
  | link {links left : Nat} {loc goal : Location} {hop : String} {hops : List String}
      {target : Path} :
      hop ≠ "." → hop ≠ ".." → nameFits hop → d.get? (loc ++ [hop]) = some (.link target) →
      Threads d links (origin target loc) (Disk.hops target ++ hops) left goal →
      Threads d (links + 1) loc (hop :: hops) left goal

def onLinks (d : Disk) (purpose : Purpose) : Nat → OnLink
  | 0 => fun _ _ _ _ => .error .tooManyLinks
  | links + 1 => fun here target rest slash =>
      walk d purpose links (slash || (rest.isEmpty && endsInSlash target))
        (origin target here) (hops target ++ rest)

variable {c d : Disk} {purpose : Purpose} {links left : Nat} {slash slash' : Bool}
variable {here loc goal : Location} {front rest : List String} {t : Target}

theorem walk_eq (d : Disk) (purpose : Purpose) (links : Nat) (slash : Bool) (loc : Location)
    (hops : List String) :
    walk d purpose links slash loc hops =
      walkHops d purpose slash (onLinks d purpose links) loc hops := by
  cases links <;> rfl

namespace Threads

theorem walk_append (h : Threads d links loc front left goal) (hrest : rest ≠ []) :
    walk d purpose links slash loc (front ++ rest) = walk d purpose left slash goal rest := by
  have hgo (hops : List String) : (hops ++ rest).isEmpty = false := by simp [hrest]
  induction h with
  | arrived => rfl
  | dot _ ih => rw [walk_eq, List.cons_append, walkHops, if_pos rfl, ← walk_eq, ih]
  | up _ ih =>
    rw [walk_eq, List.cons_append, walkHops, if_neg (by decide), if_pos rfl, ← walk_eq, ih]
  | directory hdot hup hfits hdir _ ih =>
    rw [walk_eq, List.cons_append, walkHops, if_neg hdot, if_neg hup, if_neg (by simp [hrest]),
      if_neg (by simp [hfits]), hdir, ← ih, walk_eq]
  | link hdot hup hfits hlink _ ih =>
    rw [walk_eq, List.cons_append, walkHops, if_neg hdot, if_neg hup, if_neg (by simp [hrest]),
      if_neg (by simp [hfits]), hlink]
    simp only [hgo, Bool.false_and, Bool.false_eq_true, if_false, onLinks, Bool.or_false]
    rw [← List.append_assoc, ih]

theorem walk_look (h : Threads d links loc front left goal) :
    walk d .look links slash loc front = .ok (.entry goal) := by
  induction h generalizing slash with
  | arrived => rw [walk_eq]; rfl
  | dot _ ih => rw [walk_eq, walkHops, if_pos rfl, ← walk_eq, ih]
  | up _ ih => rw [walk_eq, walkHops, if_neg (by decide), if_pos rfl, ← walk_eq, ih]
  | directory hdot hup hfits hdir _ ih =>
    rw [walk_eq, walkHops, if_neg hdot, if_neg hup, if_neg (by simp), if_neg (by simp [hfits]),
      hdir, ← ih, walk_eq]
  | link hdot hup hfits hlink _ ih =>
    rw [walk_eq, walkHops, if_neg hdot, if_neg hup, if_neg (by simp), if_neg (by simp [hfits]),
      hlink]
    simp [onLinks, ih]

theorem trans {mid : Location} {links' : Nat} (h : Threads d links loc front links' mid)
    (h' : Threads d links' mid rest left goal) : Threads d links loc (front ++ rest) left goal := by
  induction h with
  | arrived => exact h'
  | dot _ ih => exact .dot (ih h')
  | up _ ih => exact .up (ih h')
  | directory hdot hup hfits hdir _ ih => exact .directory hdot hup hfits hdir (ih h')
  | link hdot hup hfits hlink _ ih =>
    have hrest := ih h'
    rw [List.append_assoc] at hrest
    exact .link hdot hup hfits hlink hrest

theorem split (h : Threads d links loc (front ++ rest) left goal) :
    ∃ links' mid, Threads d links loc front links' mid ∧ Threads d links' mid rest left goal := by
  generalize hhops : front ++ rest = hops at h
  induction h generalizing front with
  | arrived =>
    obtain ⟨rfl, rfl⟩ := List.append_eq_nil_iff.1 hhops
    exact ⟨_, _, .arrived _ _, .arrived _ _⟩
  | dot hthreads ih =>
    rcases List.append_eq_cons_iff.1 hhops with ⟨rfl, rfl⟩ | ⟨front, rfl, hmore⟩
    · exact ⟨_, _, .arrived _ _, .dot hthreads⟩
    · obtain ⟨links', mid, hfront, hrest⟩ := ih hmore.symm
      exact ⟨links', mid, .dot hfront, hrest⟩
  | up hthreads ih =>
    rcases List.append_eq_cons_iff.1 hhops with ⟨rfl, rfl⟩ | ⟨front, rfl, hmore⟩
    · exact ⟨_, _, .arrived _ _, .up hthreads⟩
    · obtain ⟨links', mid, hfront, hrest⟩ := ih hmore.symm
      exact ⟨links', mid, .up hfront, hrest⟩
  | directory hdot hup hfits hdir hthreads ih =>
    rcases List.append_eq_cons_iff.1 hhops with ⟨rfl, rfl⟩ | ⟨front, rfl, hmore⟩
    · exact ⟨_, _, .arrived _ _, .directory hdot hup hfits hdir hthreads⟩
    · obtain ⟨links', mid, hfront, hrest⟩ := ih hmore.symm
      exact ⟨links', mid, .directory hdot hup hfits hdir hfront, hrest⟩
  | @link _ _ _ _ _ more target hdot hup hfits hlink hthreads ih =>
    rcases List.append_eq_cons_iff.1 hhops with ⟨rfl, rfl⟩ | ⟨front, rfl, hmore⟩
    · exact ⟨_, _, .arrived _ _, .link hdot hup hfits hlink hthreads⟩
    · have hwhole : (Disk.hops target ++ front) ++ rest = Disk.hops target ++ more := by
        rw [hmore, List.append_assoc]
      obtain ⟨links', mid, hfront, hrest⟩ := ih hwhole
      exact ⟨links', mid, .link hdot hup hfits hlink hfront, hrest⟩

theorem get?_goal (h : Threads d links loc front left goal) (hloc : d.get? loc = some .directory) :
    d.get? goal = some .directory := by
  induction h with
  | arrived => exact hloc
  | dot _ ih => exact ih hloc
  | up _ ih => exact ih (get?_dropLast hloc)
  | directory _ _ _ hdir _ ih => exact ih hdir
  | link _ _ _ _ _ ih => exact ih ((directories d .look).origin _ hloc)

theorem dots (h : Threads d links loc front left goal) (hdots : ∀ hop ∈ front, hop = ".") :
    links = left ∧ loc = goal := by
  induction h with
  | arrived => exact ⟨rfl, rfl⟩
  | dot _ ih => exact ih (List.forall_mem_cons.1 hdots).2
  | up => exact absurd (List.forall_mem_cons.1 hdots).1 (by decide)
  | directory hdot => exact absurd (List.forall_mem_cons.1 hdots).1 hdot
  | link hdot => exact absurd (List.forall_mem_cons.1 hdots).1 hdot

end Threads

theorem Threads.of_dots (h : Threads d links loc (front ++ rest) left goal)
    (hdots : ∀ hop ∈ rest, hop = ".") : Threads d links loc front left goal := by
  obtain ⟨links', mid, hfront, hrest⟩ := h.split
  obtain ⟨rfl, rfl⟩ := hrest.dots hdots
  exact hfront

theorem threads_names {names : List String} (hnames : ∀ name ∈ names, IsName name ∧ nameFits name)
    (h : d.get? (loc ++ names) = some .directory) :
    Threads d links loc names links (loc ++ names) := by
  induction names generalizing loc with
  | nil => simpa using .arrived links loc
  | cons name rest ih =>
    obtain ⟨⟨hname, hfits⟩, hrest⟩ := List.forall_mem_cons.1 hnames
    rw [List.append_cons] at h ⊢
    have hdir := directory_upward (List.prefix_append _ _) h
    exact .directory hname.ne_dot hname.ne_up hfits hdir (ih hrest h)

theorem exists_threads_of_walk_append (hrest : rest ≠ [])
    (h : walk d purpose links slash loc (front ++ rest) = .ok t) :
    ∃ left goal, Threads d links loc front left goal ∧
      walk d purpose left slash goal rest = .ok t := by
  induction links using Nat.strong_induction_on generalizing loc front with
  | _ links ihlinks =>
    induction front generalizing loc with
    | nil => exact ⟨links, loc, .arrived _ _, h⟩
    | cons hop front ih =>
      have hgo : front ++ rest ≠ [] := by simp [hrest]
      rw [walk_eq, List.cons_append, walkHops_eq_ok_iff] at h
      generalize hmore : front ++ rest = more at h
      cases h with
      | dot hwalk =>
        rw [← hmore] at hwalk
        obtain ⟨left, goal, hthreads, hend⟩ := ih (by rw [walk_eq]; exact hwalk.walkHops)
        exact ⟨left, goal, .dot hthreads, hend⟩
      | up hwalk =>
        rw [← hmore] at hwalk
        obtain ⟨left, goal, hthreads, hend⟩ := ih (by rw [walk_eq]; exact hwalk.walkHops)
        exact ⟨left, goal, .up hthreads, hend⟩
      | free => exact absurd hmore hgo
      | directory henters hdir hwalk =>
        rw [← hmore] at hwalk
        obtain ⟨left, goal, hthreads, hend⟩ := ih (by rw [walk_eq]; exact hwalk.walkHops)
        exact ⟨left, goal, .directory henters.notDot henters.notUp henters.fits hdir hthreads, hend⟩
      | file => exact absurd hmore hgo
      | kept => exact absurd hmore hgo
      | @followed _ _ _ target _ henters hlink _ hon =>
        cases links with
        | zero => cases hon
        | succ links =>
          simp only [onLinks] at hon
          rw [List.isEmpty_eq_false_iff.2 (hmore ▸ hgo), Bool.false_and, Bool.or_false, ← hmore,
            ← List.append_assoc] at hon
          obtain ⟨left, goal, hthreads, hend⟩ := ihlinks links (Nat.lt_succ_self _) hon
          exact ⟨left, goal, .link henters.notDot henters.notUp henters.fits hlink hthreads, hend⟩

/-- A look that ends at a directory, as it must behind a slash, has come through directories. -/
theorem exists_threads_of_walk (hgoal : slash = false → d.get? goal = some .directory)
    (h : walk d .look links slash loc front = .ok (.entry goal)) :
    ∃ left, Threads d links loc front left goal := by
  induction links using Nat.strong_induction_on generalizing slash loc front with
  | _ links ihlinks =>
    induction front generalizing loc with
    | nil =>
      rw [walk_eq] at h
      obtain rfl := Target.entry.inj (Except.ok.inj h)
      exact ⟨links, .arrived _ _⟩
    | cons hop front ih =>
      rw [walk_eq, walkHops_eq_ok_iff] at h
      generalize hend : Target.entry goal = t at h
      cases h with
      | dot hwalk =>
        obtain ⟨left, hthreads⟩ := ih (by rw [walk_eq, hend]; exact hwalk.walkHops)
        exact ⟨left, .dot hthreads⟩
      | up hwalk =>
        obtain ⟨left, hthreads⟩ := ih (by rw [walk_eq, hend]; exact hwalk.walkHops)
        exact ⟨left, .up hthreads⟩
      | free => cases hend
      | directory henters hdir hwalk =>
        obtain ⟨left, hthreads⟩ := ih (by rw [walk_eq, hend]; exact hwalk.walkHops)
        exact ⟨left, .directory henters.notDot henters.notUp henters.fits hdir hthreads⟩
      | file _ hfile hslash =>
        obtain rfl := Target.entry.inj hend
        have hdir := hgoal (Bool.eq_false_iff.2 fun h => by cases hslash h)
        simp [hfile] at hdir
      | kept _ _ hkeeps => simp [Purpose.KeepsLink] at hkeeps
      | followed henters hlink _ hon =>
        cases links with
        | zero => cases hon
        | succ links =>
          obtain ⟨left, hthreads⟩ := ihlinks links (Nat.lt_succ_self _)
            (fun h => hgoal (Bool.or_eq_false_iff.1 h).1) (hend ▸ hon)
          exact ⟨left, .link henters.notDot henters.notUp henters.fits hlink hthreads⟩

theorem walkHops_fewer {onLink onLink' : OnLink} {e : OsError} (hops : List String)
    (hlink : ∀ here target rest slash,
      onLink here target rest slash = onLink' here target rest slash ∨
        onLink here target rest slash = .error e) :
    walkHops d purpose slash onLink loc hops = walkHops d purpose slash onLink' loc hops ∨
      walkHops d purpose slash onLink loc hops = .error e := by
  induction hops generalizing loc with
  | nil => exact .inl rfl
  | cons hop rest ih =>
    simp only [walkHops]
    split
    · exact ih
    split
    · exact ih
    split
    · exact .inl rfl
    split
    · exact .inl rfl
    split
    · exact .inl rfl
    · exact ih
    · exact .inl rfl
    · split
      · exact .inl rfl
      · exact hlink _ _ _ _

theorem walk_fewer {fewer : Nat} (hle : fewer ≤ links) (hops : List String) :
    walk d purpose fewer slash loc hops = walk d purpose links slash loc hops ∨
      walk d purpose fewer slash loc hops = .error .tooManyLinks := by
  induction fewer generalizing links slash loc hops with
  | zero =>
    rw [walk_eq, walk_eq]
    exact walkHops_fewer hops fun _ _ _ _ => .inr rfl
  | succ fewer ih =>
    obtain ⟨links, rfl⟩ : ∃ n, links = n + 1 := ⟨links - 1, by omega⟩
    rw [walk_eq, walk_eq]
    exact walkHops_fewer hops fun _ _ _ _ => ih (by omega) _

theorem walk_lookAtLink_slash (d : Disk) (links : Nat) (loc : Location) (hops : List String) :
    walk d .lookAtLink links true loc hops = walk d .look links true loc hops := by
  induction links using Nat.strong_induction_on generalizing loc hops with
  | _ links ihlinks =>
    have hlinks (here : Location) (target : Path) (rest : List String) :
        onLinks d .lookAtLink links here target rest true =
          onLinks d .look links here target rest true := by
      cases links with
      | zero => rfl
      | succ links => simpa [onLinks] using ihlinks links (Nat.lt_succ_self _) _ _
    rw [walk_eq, walk_eq]
    induction hops generalizing loc with
    | nil => rfl
    | cons hop rest ih => simp [walkHops, ih, hlinks]

section Paths
variable {p q : Path} {name last : String} {dots : List String}

theorem front_of_parent? (h : p.parent? = some q) (hhops : hops p = front ++ [last])
    (hlast : last ≠ ".") : ∃ dots, front = hops q ++ dots ∧ ∀ hop ∈ dots, hop = "." := by
  rcases hops_of_parent? h with hdots | ⟨last', dots, dots', hleads⟩
  · exact absurd (hdots last (by simp [hhops])) hlast
  · refine ⟨dots, ?_, hleads.idle⟩
    have heq := hhops.symm.trans hleads.hops_eq
    rcases List.eq_nil_or_concat dots' with rfl | ⟨init, dot, rfl⟩
    · exact (List.append_inj' heq rfl).1
    · rw [List.concat_eq_append] at heq
      have heq' : front ++ [last] = (hops q ++ dots ++ last' :: init) ++ [dot] := by simpa using heq
      have hend : last = dot := by simpa using (List.append_inj' heq' rfl).2
      exact absurd (hleads.idle' last (by simp [hend])) hlast

/-- What stands below a path ends in a name, so that it is the parent of what stands below it. -/
theorem parent?_div_div (hname : IsName name) (hlast : IsName last) :
    ((p / name) / last).parent? = some (p / name) := by
  obtain ⟨-, trunk, hpieces, -⟩ := pieces_div p hname
  obtain ⟨hlead, trunk', hpieces', htrunk⟩ := pieces_div (p / name) hlast
  have hsame : (p / name).pieces = trunk' := by
    rcases htrunk with htrunk | htrunk
    · exact htrunk
    · have hempty : name.toList = [] := by
        simpa using (List.append_inj' (hpieces.symm.trans htrunk) rfl).2
      exact absurd hempty hname.notEmpty
  have hidle : trunk'.reverse.dropWhile isIdle = trunk'.reverse := by
    rw [← hsame, hpieces, List.reverse_append, List.reverse_singleton, List.singleton_append,
      List.dropWhile_cons_of_neg (by simp [hname.not_isIdle])]
  rw [parent?, hpieces', List.reverse_append, List.reverse_singleton, List.singleton_append,
    List.dropWhile_cons_of_neg (by simp [hlast.not_isIdle])]
  simp only
  rw [hidle, List.reverse_reverse, hlead, ← hsame, lead_append_pieces, String.ofList_toList]

theorem Walkable.of_begins (hp : Walkable p) (h : Begins q p) (htext : ¬ q.text.isEmpty) :
    Walkable q := by
  obtain ⟨rest, hrest, -⟩ := h
  have hsize : p.text = q.text ++ String.ofList rest := String.toList_inj.1 (by simp [hrest])
  refine ⟨fun hnul => hp.nulless (by simp [hrest, hnul]), by simpa using htext, ?_⟩
  have hshort := hp.fits
  simp only [pathFits, hsize, String.utf8ByteSize_append, decide_eq_true_eq] at hshort ⊢
  omega

theorem locateLink_eq_ok_iff :
    d.locateLink here p = .ok loc ↔ d.resolve here .lookAtLink p = .ok (.entry loc) := by
  rw [locateLink]
  split <;> rename_i h <;> simp [h]

theorem exists_threads_of_look (h : d.resolve here .look p = .ok (.entry loc))
    (hloc : d.get? loc = some .directory) :
    ∃ left, Threads d maxLinks (origin p here) (hops p) left loc :=
  exists_threads_of_walk (fun _ => hloc) (resolve_eq_ok_iff.1 h).2

theorem Threads.resolve_look (h : Threads d maxLinks (origin p here) (hops p) left loc)
    (hp : Walkable p) : d.resolve here .look p = .ok (.entry loc) :=
  resolve_eq_ok_iff.2 ⟨hp, h.walk_look⟩

theorem Threads.resolve_parent? (h : Threads d maxLinks (origin p here) front left loc)
    (hhops : hops p = front ++ [last]) (hlast : last ≠ ".") (hparent : p.parent? = some q)
    (hq : Walkable q) : d.resolve here .look q = .ok (.entry loc) := by
  obtain ⟨dots, rfl, hdots⟩ := front_of_parent? hparent hhops hlast
  have horigin : origin p here = origin q here := by
    rw [origin, ← (begins_of_parent? hparent).isAbsolute, origin]
  rw [horigin] at h
  exact (h.of_dots hdots).resolve_look hq

theorem Threads.eq_of_parent? (h : Threads d maxLinks (origin p here) front left loc)
    (hhops : hops p = front ++ [last]) (hlast : last ≠ ".") (hparent : p.parent? = some q)
    (hq : q.text.isEmpty) : loc = here := by
  obtain rfl : q = ⟨""⟩ := congrArg Path.mk (by simpa using hq)
  obtain ⟨dots, rfl, hdots⟩ := front_of_parent? hparent hhops hlast
  have horigin : origin p here = here := by
    rw [origin, ← (begins_of_parent? hparent).isAbsolute]
    rfl
  have hend := (h.dots (by simpa [hops, Text.splitOn] using hdots)).2
  rw [← hend, horigin]

theorem Threads.resolve_div (h : Threads d maxLinks (origin p here) (hops p) left loc)
    (hname : IsName name) (hp : Walkable (p / name)) :
    d.resolve here purpose (p / name) = walk d purpose left false loc [name] := by
  have hwalk : walk d purpose maxLinks (endsInSlash (p / name)) (origin (p / name) here)
      (hops (p / name)) = walk d purpose left false loc [name] := by
    rw [hops_div hname, origin_div hname, endsInSlash_div hname, h.walk_append (by simp)]
  obtain ⟨hnul, hempty, hfits⟩ := hp
  rw [resolve, if_neg (by simpa using hnul), if_neg (by simp [hempty]), if_neg (by simp [hfits]),
    hwalk]

theorem exists_lookAtLink (h : d.resolve here .look p = .ok (.entry loc)) :
    ∃ loc', d.resolve here .lookAtLink p = .ok (.entry loc') := by
  obtain ⟨hwalkable, hwalk⟩ := resolve_eq_ok_iff.1 h
  simp only [resolve_eq_ok_iff, hwalkable, true_and]
  cases hslash : endsInSlash p with
  | true => exact ⟨loc, by rw [walk_lookAtLink_slash, ← hslash, hwalk]⟩
  | false =>
    rw [hslash] at hwalk
    rcases List.eq_nil_or_concat (hops p) with hnil | ⟨front, last, hhops⟩
    · exact ⟨_, by rw [hnil, walk_eq, walkHops]⟩
    rw [hhops, List.concat_eq_append] at hwalk ⊢
    obtain ⟨left, dir, hthreads, hend⟩ := exists_threads_of_walk_append (by simp) hwalk
    rw [hthreads.walk_append (by simp)]
    rw [walk_eq, walkHops_eq_ok_iff] at hend
    simp only [walk_eq, walkHops_eq_ok_iff]
    generalize hentry : Target.entry loc = t at hend
    cases hend with
    | dot => exact ⟨_, .dot (.arrived _)⟩
    | up => exact ⟨_, .up (.arrived _)⟩
    | free => cases hentry
    | directory henters hdir _ => exact ⟨_, .directory (henters.to (by simp)) hdir (.arrived _)⟩
    | file henters hfile hend => exact ⟨_, .file (henters.to (by simp)) hfile (by simp)⟩
    | kept _ _ hkeeps => simp [Purpose.KeepsLink] at hkeeps
    | followed henters hlink _ _ => exact ⟨_, .kept (henters.to (by simp)) hlink (.inr ⟨rfl, rfl⟩)⟩

/-- The path leads to a directory, with so many links left, and on to a name in it. -/
structure Designates (d : Disk) (here : Location) (p : Path) (left : Nat) (dir : Location)
    (last : String) : Prop where
  leads : ∃ front, hops p = front ++ [last] ∧ Threads d maxLinks (origin p here) front left dir
  notDot : last ≠ "."
  notUp : last ≠ ".."
  fits : nameFits last
  slashless : endsInSlash p = false

theorem lookAtLink_cases (hhere : d.get? here = some .directory)
    (h : d.resolve here .lookAtLink p = .ok (.entry loc)) :
    d.get? loc = some .directory ∧ d.resolve here .look p = .ok (.entry loc) ∨
      ∃ left dir last, Designates d here p left dir last ∧ loc = dir ++ [last] ∧
        d.get? loc ≠ some .directory := by
  obtain ⟨hwalkable, hwalk⟩ := resolve_eq_ok_iff.1 h
  have horigin : d.get? (origin p here) = some .directory := (directories d .look).origin p hhere
  have hthrough {left : Nat} (hthreads : Threads d maxLinks (origin p here) (hops p) left loc) :
      d.get? loc = some .directory ∧ d.resolve here .look p = .ok (.entry loc) :=
    ⟨hthreads.get?_goal horigin, hthreads.resolve_look hwalkable⟩
  cases hslash : endsInSlash p with
  | true =>
    rw [hslash, walk_lookAtLink_slash] at hwalk
    obtain ⟨left, hthreads⟩ := exists_threads_of_walk (by simp) hwalk
    exact .inl (hthrough hthreads)
  | false =>
    rw [hslash] at hwalk
    rcases List.eq_nil_or_concat (hops p) with hnil | ⟨front, last, hhops⟩
    · rw [hnil, walk_eq] at hwalk
      obtain rfl := Target.entry.inj (Except.ok.inj hwalk)
      exact .inl (hthrough (by rw [hnil]; exact .arrived _ _))
    rw [List.concat_eq_append] at hhops
    rw [hhops] at hwalk hthrough
    obtain ⟨left, dir, hfront, hend⟩ := exists_threads_of_walk_append (by simp) hwalk
    rw [walk_eq, walkHops_eq_ok_iff] at hend
    generalize hentry : Target.entry loc = t at hend
    cases hend with
    | dot hwalk =>
      obtain rfl := Target.entry.inj (hentry.trans (Except.ok.inj hwalk.walkHops).symm)
      exact .inl (hentry ▸ hthrough (hfront.trans (.dot (.arrived _ _))))
    | up hwalk =>
      obtain rfl := Target.entry.inj (hentry.trans (Except.ok.inj hwalk.walkHops).symm)
      exact .inl (hentry ▸ hthrough (hfront.trans (.up (.arrived _ _))))
    | free => cases hentry
    | directory henters hdir hwalk =>
      obtain rfl := Target.entry.inj (hentry.trans (Except.ok.inj hwalk.walkHops).symm)
      exact .inl (hentry ▸ hthrough (hfront.trans
        (.directory henters.notDot henters.notUp henters.fits hdir (.arrived _ _))))
    | file henters hfile _ =>
      obtain rfl := Target.entry.inj hentry
      exact .inr ⟨left, dir, last,
        ⟨⟨front, hhops, hfront⟩, henters.notDot, henters.notUp, henters.fits, hslash⟩, rfl,
        by simp [hfile]⟩
    | kept henters hlink _ =>
      obtain rfl := Target.entry.inj hentry
      exact .inr ⟨left, dir, last,
        ⟨⟨front, hhops, hfront⟩, henters.notDot, henters.notUp, henters.fits, hslash⟩, rfl,
        by simp [hlink]⟩
    | followed _ _ hgoes _ => exact absurd ⟨rfl, .inr ⟨rfl, rfl⟩⟩ hgoes

end Paths

end GemStaging.Disk
